import ImpCompiler.Proofs.Live.RangeSet
import Mathlib.Logic.Function.Basic

/-!
# Proofs.Live.Canonical — one list of ranges for every set of integers

Ranges that are apart are determined by the integers in them (`Apart.eq_of_holds`), so a
set does not remember in which order, and by way of which other sets, its ranges came in.
Sets are built by changes to numbered sets that are empty at first; what a change does to
the ranges of a set is said by `Change.apply`, and which ranges were given by
`Change.record`.

The ranges of a set also stand in an order that a search by halving can use. Insertion is
then a search for the first range that may touch the new one, a loop that widens the new
range, and a splice (`Apart.insert_eq_splice`); whether an integer is in the set is decided
by one search (`Ordered.covers_eq_search`).
-/

namespace ImpCompiler

set_option autoImplicit false

namespace RangeSet

variable {r s : Range} {rs us : List Range} {i : Int}

/-! ## Ranges that are apart -/

theorem Apart.holds_start (apart : Apart (r :: rs)) : Holds (r :: rs) r.start :=
  ⟨r, by simp, Int.le_refl _, (apart_cons.1 apart).1⟩

/-- There is a gap behind the first range. -/
theorem Apart.not_holds_stop (apart : Apart (r :: rs)) : ¬ Holds (r :: rs) r.stop := by
  intro member
  rcases holds_cons.1 member with here | ⟨s, later, here⟩
  · exact absurd here.2 (Int.lt_irrefl _)
  · have gap := (apart_cons.1 apart).2.1 s later
    have := here.1
    omega

/-- The integers of the other ranges are those that are not below the end of the first. -/
theorem Apart.holds_tail (apart : Apart (r :: rs)) :
    Holds rs i ↔ Holds (r :: rs) i ∧ r.stop ≤ i := by
  constructor
  · rintro ⟨s, later, here⟩
    have gap := (apart_cons.1 apart).2.1 s later
    have := here.1
    exact ⟨⟨s, by simp [later], here⟩, by omega⟩
  · rintro ⟨member, behind⟩
    refine (holds_cons.1 member).resolve_left fun here => ?_
    have := here.2
    omega

/-- A range that starts where the first one does, and has no other integers, ends no later. -/
theorem Apart.stop_le (apart : Apart (r :: rs)) (start : s.start = r.start)
    (within : ∀ i ∈ s, Holds (r :: rs) i) : s.stop ≤ r.stop := by
  by_contra longer
  apply apart.not_holds_stop
  have some := (apart_cons.1 apart).1
  exact within r.stop ⟨by omega, by omega⟩

/-- Lists of ranges that are apart are the same if they have the same integers. -/
theorem Apart.eq_of_holds (first : Apart rs) (second : Apart us)
    (same : ∀ i, Holds rs i ↔ Holds us i) : rs = us := by
  induction rs generalizing us with
  | nil =>
    cases us with
    | nil => rfl
    | cons s us => exact absurd ((same s.start).2 second.holds_start) not_holds_nil
  | cons r rs ih =>
    cases us with
    | nil => exact absurd ((same r.start).1 first.holds_start) not_holds_nil
    | cons s us =>
      have start : r.start = s.start :=
        Int.le_antisymm (first.start_le ((same _).2 second.holds_start))
          (second.start_le ((same _).1 first.holds_start))
      have stop : r.stop = s.stop :=
        Int.le_antisymm
          (second.stop_le start fun i here => (same i).1 (holds_cons.2 (.inl here)))
          (first.stop_le start.symm fun i here => (same i).2 (holds_cons.2 (.inl here)))
      have rest : rs = us := by
        apply ih (apart_cons.1 first).2.2 (apart_cons.1 second).2.2
        intro i
        rw [first.holds_tail, second.holds_tail, same, stop]
      cases r
      cases s
      cases start
      cases stop
      rw [rest]

/-- Sets in order with the same integers are the same. -/
theorem Ordered.ext {s t : RangeSet} (left : s.Ordered) (right : t.Ordered)
    (same : ∀ i, i ∈ s ↔ i ∈ t) : s = t := by
  cases s
  cases t
  exact congrArg RangeSet.mk (Apart.eq_of_holds left right same)

/-! ## Searching by halving -/

/-- The least number from `low` up to `high` that passes a test, if whatever is behind one
that passes it passes it too; `high` if none does. -/
def bisect (test : Nat → Bool) (low high : Nat) : Nat :=
  if low < high then
    if test ((low + high) / 2) then bisect test low ((low + high) / 2)
    else bisect test ((low + high) / 2 + 1) high
  else low
termination_by high - low

/-- Bisection finds where a monotone test changes. -/
theorem bisect_eq {test : Nat → Bool} {low high k : Nat} (above : low ≤ k) (below : k ≤ high)
    (no : ∀ j < k, test j = false) (yes : ∀ j, k ≤ j → j < high → test j = true) :
    bisect test low high = k := by
  fun_induction bisect test low high with
  | case1 low high some passes ih =>
    -- what passes is not in front of the number that is looked for
    have inside : k ≤ (low + high) / 2 := by
      by_contra before
      rw [no _ (by omega)] at passes
      cases passes
    exact ih above inside fun j behind before => yes j behind (by omega)
  | case2 low high some fails ih =>
    have outside : (low + high) / 2 < k := by
      by_contra behind
      exact fails (yes _ (by omega) (by omega))
    exact ih outside below yes
  | case3 low high none => omega

/-- The place of the first range that passes a test, found by halving. -/
def search (test : Range → Bool) (rs : List Range) : Nat :=
  bisect (fun k => (rs[k]?).any test) 0 rs.length

/-- The search by bisection finds what a search from the left finds. -/
theorem search_eq {test : Range → Bool}
    (order : rs.Pairwise fun r s => test r = true → test s = true) :
    search test rs = rs.findIdx test := by
  refine bisect_eq (Nat.zero_le _) List.findIdx_le_length ?_ ?_
  · intro j before
    have inside : j < rs.length := Nat.lt_of_lt_of_le before List.findIdx_le_length
    simpa [inside] using List.not_of_lt_findIdx before
  · intro j behind inside
    have found := List.findIdx_getElem (w := Nat.lt_of_le_of_lt behind inside)
    rcases Nat.eq_or_lt_of_le behind with here | later
    · simpa [← here, Nat.lt_of_le_of_lt behind inside] using found
    · simpa [inside] using List.pairwise_iff_getElem.1 order _ j _ inside later found

/-- Later ranges end later. -/
theorem Apart.stops_increase (apart : Apart rs) : rs.Pairwise fun r s => r.stop < s.stop := by
  refine apart.2.imp_of_mem fun {r s} _ second gap => ?_
  have some := apart.1 s second
  omega

/-- Whether an integer is in a set, by one search for the first range that ends behind it. -/
def coversAt (s : RangeSet) (i : Int) : Bool :=
  (s.ranges[search (fun r => decide (i < r.stop)) s.ranges]?).any fun r => decide (r.start ≤ i)

/-- Membership can be decided by bisection. -/
theorem Ordered.covers_eq_search {s : RangeSet} (ordered : s.Ordered) (i : Int) :
    s.covers i = s.coversAt i := by
  have order : s.ranges.Pairwise fun r s =>
      decide (i < r.stop) = true → decide (i < s.stop) = true := by
    refine (Apart.stops_increase ordered).imp fun {r s} later ends => ?_
    simp only [decide_eq_true_eq] at ends ⊢
    omega
  rw [covers, coversAt, search_eq order, ← List.find?_eq_getElem?_findIdx]
  cases s.ranges.find? fun r => decide (i < r.stop) <;> rfl

/-- The ranges of `rs` that the range `r` reaches become part of it. -/
def widen (r : Range) : List Range → List Range
  | [] => [r]
  | s :: rest => if s.start ≤ r.stop then widen (r.hull s) rest else r :: s :: rest

/-- Puts a range in the place of those that it overlaps or touches: the first of them is
searched for, and those behind it are taken in one by one. -/
def splice (r : Range) (rs : List Range) : List Range :=
  let k := search (fun s => decide (r.start ≤ s.stop)) rs
  rs.take k ++ widen r (rs.drop k)

/-- A range that meets all the others is widened by them. -/
theorem insert_eq_widen (ends : ∀ s ∈ rs, r.start ≤ s.stop) : insert r rs = widen r rs := by
  induction rs generalizing r with
  | nil => rfl
  | cons s rs ih =>
    obtain ⟨here, others⟩ := List.forall_mem_cons.1 ends
    rw [insert, widen, if_neg (by omega)]
    by_cases reaches : s.start ≤ r.stop
    · rw [if_neg (by omega), if_pos reaches]
      apply ih
      intro t member
      have := others t member
      simp only [Range.hull]
      omega
    · rw [if_pos (by omega), if_neg reaches]

/-- Inserting from the left replaces the run of ranges that meet the new one. -/
theorem Apart.insert_eq_splice (apart : Apart rs) (r : Range) : RangeSet.insert r rs = splice r rs := by
  have order : rs.Pairwise fun s t =>
      decide (r.start ≤ s.stop) = true → decide (r.start ≤ t.stop) = true := by
    refine apart.stops_increase.imp fun {s t} later ends => ?_
    simp only [decide_eq_true_eq] at ends ⊢
    omega
  rw [splice, search_eq order]
  clear order
  induction rs with
  | nil => rfl
  | cons s rs ih =>
    obtain ⟨some, gaps, rest⟩ := apart_cons.1 apart
    by_cases before : s.stop < r.start
    · have skipped : ¬ r.start ≤ s.stop := by omega
      rw [RangeSet.insert, if_pos before, ih rest]
      simp [List.findIdx_cons, skipped]
    · have found : r.start ≤ s.stop := by omega
      have all : ∀ t ∈ s :: rs, r.start ≤ t.stop := by
        refine List.forall_mem_cons.2 ⟨found, fun t member => ?_⟩
        have := (List.pairwise_cons.1 apart.stops_increase).1 t member
        omega
      rw [insert_eq_widen all]
      simp [List.findIdx_cons, found]

/-! ## Building sets by changes -/

/-- A change to one of several sets, which have numbers. -/
inductive Change where
  | add (n : Nat) (r : Range)
  | union (n m : Nat)

namespace Change

def apply (sets : Nat → RangeSet) : Change → Nat → RangeSet
  | .add n r => Function.update sets n ((sets n).add r)
  | .union n m => Function.update sets n ((sets n).union (sets m))

/-- The ranges that were given to each set, where a set that was added stands for the ranges
that were given to it before. -/
def record (given : Nat → List Range) : Change → Nat → List Range
  | .add n r => Function.update given n (given n ++ [r])
  | .union n m => Function.update given n (given n ++ given m)

end Change

/-- The sets after changes, which are empty before. -/
def built (changes : List Change) : Nat → RangeSet := changes.foldl Change.apply fun _ => empty

def given (changes : List Change) : Nat → List Range := changes.foldl Change.record fun _ => []

theorem holds_append : Holds (rs ++ us) i ↔ Holds rs i ∨ Holds us i := by
  simp only [Holds, List.mem_append, or_and_right, exists_or]

/-- A set is in order and has the integers of ranges. -/
structure Collects (s : RangeSet) (given : List Range) : Prop where
  ordered : s.Ordered
  mem_iff : ∀ i, i ∈ s ↔ Holds given i

namespace Collects

variable {s t : RangeSet}

theorem empty : Collects empty [] := ⟨.empty, fun _ => .rfl⟩

theorem add (collects : Collects s rs) (r : Range) : Collects (s.add r) (rs ++ [r]) := by
  refine ⟨collects.ordered.add r, fun i => ?_⟩
  rw [mem_add, holds_append, collects.mem_iff, or_comm]
  simp [Holds]

theorem union (left : Collects s rs) (right : Collects t us) : Collects (s.union t) (rs ++ us) := by
  refine ⟨left.ordered.union t, fun i => ?_⟩
  rw [mem_union, holds_append, left.mem_iff, right.mem_iff]

/-- A change keeps that every set has the integers of the ranges that it was given. -/
theorem apply {sets : Nat → RangeSet} {given : Nat → List Range}
    (before : ∀ n, Collects (sets n) (given n)) (change : Change) (n : Nat) :
    Collects (change.apply sets n) (change.record given n) := by
  cases change with
  | add k r =>
    by_cases here : n = k
    · subst here
      simpa [Change.apply, Change.record] using (before n).add r
    · simpa [Change.apply, Change.record, here] using before n
  | union k m =>
    by_cases here : n = k
    · subst here
      simpa [Change.apply, Change.record] using (before n).union (before m)
    · simpa [Change.apply, Change.record, here] using before n

/-- Sets that are built by additions and unions hold exactly the ranges given to them. -/
theorem built (changes : List Change) (n : Nat) :
    Collects (built changes n) (given changes n) := by
  have all : ∀ (changes : List Change) (sets : Nat → RangeSet) (given : Nat → List Range),
      (∀ n, Collects (sets n) (given n)) →
      ∀ n, Collects (changes.foldl Change.apply sets n) (changes.foldl Change.record given n) := by
    intro changes
    induction changes with
    | nil => exact fun _ _ before => before
    | cons change changes ih => exact fun _ _ before => ih _ _ (apply before change)
  exact all changes _ _ (fun _ => empty) n

end Collects

/-- Sets are canonical. After any changes, the ranges of every set are not empty and stand in
order with gaps between them, and they have the integers of the ranges that the set was
given. Sets with the same integers have the same ranges, so it does not matter in which order
ranges were given and which of them came in together. A range that is added next gets to its
place by a search, a widening and a splice. -/
theorem range_sets_are_canonical (changes : List Change) (n : Nat) :
    ((∀ r ∈ (built changes n).ranges, r.start < r.stop) ∧
      (built changes n).ranges.Pairwise fun r s => r.stop < s.start) ∧
    (∀ i, i ∈ built changes n ↔ ∃ r ∈ given changes n, r.start ≤ i ∧ i < r.stop) ∧
    (∀ (others : List Change) (m : Nat),
      (∀ i, i ∈ built changes n ↔ i ∈ built others m) →
        (built changes n).ranges = (built others m).ranges) ∧
    (∀ (others : List Change) (m : Nat),
      (given changes n).Perm (given others m) → built changes n = built others m) ∧
    ∀ r : Range, r.start < r.stop →
      ((built changes n).add r).ranges = splice r (built changes n).ranges := by
  have collects := Collects.built changes n
  refine ⟨collects.ordered, collects.mem_iff, ?_, ?_, ?_⟩
  · intro others m same
    rw [collects.ordered.ext (Collects.built others m).ordered same]
  · intro others m shuffled
    have other := Collects.built others m
    apply collects.ordered.ext other.ordered
    intro i
    rw [collects.mem_iff, other.mem_iff]
    simp only [Holds, shuffled.mem_iff]
  · intro r some
    rw [add, if_neg (by omega)]
    exact Apart.insert_eq_splice collects.ordered r

/-- A range that fills a gap joins those around it; one that is empty or reversed adds nothing. -/
example : ((((empty.add ⟨4, 6⟩).add ⟨0, 2⟩).add ⟨9, 9⟩).union ((empty.add ⟨2, 4⟩).add ⟨8, 7⟩)).ranges =
    [⟨0, 6⟩] := by decide

/-! ## Asking sets that were built -/

section Bounds

variable {s : RangeSet}

/-- The start of a set that is not empty is in it. -/
theorem Ordered.start_mem (ordered : s.Ordered) (some : s.ranges ≠ []) : s.start ∈ s := by
  obtain ⟨ranges⟩ := s
  cases ranges with
  | nil => exact absurd rfl some
  | cons r rs => exact Apart.holds_start ordered

/-- The last integer of a set is the one in front of its end. -/
theorem Ordered.last_mem (ordered : s.Ordered) (some : s.ranges ≠ []) : s.stop - 1 ∈ s := by
  have known := List.getLast?_eq_some_getLast some
  have member := List.getLast_mem some
  have stop : s.stop = (s.ranges.getLast some).stop := by simp only [RangeSet.stop, known]
  have := ordered.1 _ member
  exact ⟨_, member, by rw [stop]; omega, by rw [stop]; omega⟩

/-- Sets whose ranges at most touch do not intersect. -/
theorem Ordered.intersects_eq_false {t : RangeSet} (left : s.Ordered) (right : t.Ordered)
    (apart : ∀ r ∈ s.ranges, ∀ u ∈ t.ranges, r.stop ≤ u.start ∨ u.stop ≤ r.start) :
    s.intersects t = false := by
  rw [← Bool.not_eq_true, left.intersects_iff right]
  rintro ⟨i, ⟨r, member, here⟩, u, member', here'⟩
  have := apart r member u member'
  rw [Range.mem_iff] at here here'
  omega

end Bounds

/-- Questions to sets that were built are answered by their integers: whether an integer is in
a set, also when the ranges are searched by halving, whether two sets have an integer in
common, which does not depend on their order and is not so for sets that only touch, and which
integers of a set are the first and the last. -/
theorem queries_agree_with_membership (changes others : List Change) (n m : Nat) :
    (∀ i, (built changes n).covers i = true ↔
      ∃ r ∈ (built changes n).ranges, r.start ≤ i ∧ i < r.stop) ∧
    (∀ i, (built changes n).covers i = (built changes n).coversAt i) ∧
    ((built changes n).intersects (built others m) = true ↔
      ∃ i, i ∈ built changes n ∧ i ∈ built others m) ∧
    (built changes n).intersects (built others m) = (built others m).intersects (built changes n) ∧
    ((∀ r ∈ (built changes n).ranges, ∀ u ∈ (built others m).ranges,
      r.stop ≤ u.start ∨ u.stop ≤ r.start) →
        (built changes n).intersects (built others m) = false) ∧
    ((built changes n).ranges ≠ [] →
      ((built changes n).start ∈ built changes n ∧
        ∀ i ∈ built changes n, (built changes n).start ≤ i) ∧
      ((built changes n).stop - 1 ∈ built changes n ∧
        ∀ i ∈ built changes n, i ≤ (built changes n).stop - 1)) := by
  have first := (Collects.built changes n).ordered
  have second := (Collects.built others m).ordered
  refine ⟨fun i => first.covers_iff, first.covers_eq_search, first.intersects_iff second, ?_,
    first.intersects_eq_false second,
    fun some => ⟨⟨first.start_mem some, ?_⟩, first.last_mem some, ?_⟩⟩
  · rw [Bool.eq_iff_iff, first.intersects_iff second, second.intersects_iff first]
    simp only [and_comm]
  · exact fun i => first.start_le
  · exact fun i member => Int.le_sub_one_of_lt (first.lt_stop member)

end RangeSet

end ImpCompiler
