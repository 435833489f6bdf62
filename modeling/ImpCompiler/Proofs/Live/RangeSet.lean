import ImpCompiler.Live.RangeSet
import Mathlib.Tactic.Common

/-!
# Proofs.Live.RangeSet — range sets are sets of integers

What a set of ranges stands for is the integers in its ranges. `add` and `union` are
insertion and union of these, `intersects` decides whether two sets have an integer in
common, and `start` and `stop` bound a set. The ranges of every set that is built this
way are not empty and stand in order with gaps between them (`RangeSet.Ordered`).
-/

namespace ImpCompiler

set_option autoImplicit false

instance : Membership Int Range := ⟨fun r i => r.start ≤ i ∧ i < r.stop⟩

def RangeSet.Holds (rs : List Range) (i : Int) : Prop := ∃ r ∈ rs, i ∈ r

instance : Membership Int RangeSet := ⟨fun s i => RangeSet.Holds s.ranges i⟩

namespace Range

variable {r s : Range} {i : Int}

theorem mem_iff : i ∈ r ↔ r.start ≤ i ∧ i < r.stop := .rfl

/-- Ranges that overlap or touch have no gap between them. -/
theorem mem_hull (left : r.start ≤ s.stop) (right : s.start ≤ r.stop) :
    i ∈ r.hull s ↔ i ∈ r ∨ i ∈ s := by
  simp only [mem_iff, hull]
  omega

end Range

namespace RangeSet

variable {s t : RangeSet} {r : Range} {i : Int} {rs : List Range}

theorem not_holds_nil : ¬ Holds [] i := by simp [Holds]

theorem holds_cons : Holds (r :: rs) i ↔ i ∈ r ∨ Holds rs i := by simp [Holds]

theorem notMem_empty (i : Int) : i ∉ empty := not_holds_nil

/-- Ranges that are not empty, in order, with gaps between them. -/
def Apart (rs : List Range) : Prop :=
  (∀ r ∈ rs, r.start < r.stop) ∧ rs.Pairwise fun r s => r.stop < s.start

theorem apart_cons :
    Apart (r :: rs) ↔ r.start < r.stop ∧ (∀ s ∈ rs, r.stop < s.start) ∧ Apart rs := by
  simp only [Apart, List.forall_mem_cons, List.pairwise_cons]
  tauto

def Ordered (s : RangeSet) : Prop := Apart s.ranges

/-! ## Building sets -/

/-- Inserting a range adds its numbers and no others. -/
theorem holds_insert (r : Range) (rs : List Range) :
    Holds (insert r rs) i ↔ i ∈ r ∨ Holds rs i := by
  fun_induction insert r rs with
  | case1 r => exact holds_cons
  | case2 r s rest behind ih => rw [holds_cons, ih, holds_cons, or_left_comm]
  | case3 r s rest behind before => exact holds_cons
  | case4 r s rest behind before ih =>
    rw [ih, Range.mem_hull (Int.not_lt.1 behind) (Int.not_lt.1 before), holds_cons,
      or_assoc]

theorem lt_start_of_mem_insert {x : Int} (first : x < r.start)
    (others : ∀ s ∈ rs, x < s.start) : ∀ s ∈ insert r rs, x < s.start := by
  fun_induction insert r rs with
  | case1 r => simpa using first
  | case2 r s rest behind ih =>
    obtain ⟨here, others⟩ := List.forall_mem_cons.1 others
    exact List.forall_mem_cons.2 ⟨here, ih first others⟩
  | case3 r s rest behind before => exact List.forall_mem_cons.2 ⟨first, others⟩
  | case4 r s rest behind before ih =>
    obtain ⟨here, others⟩ := List.forall_mem_cons.1 others
    exact ih (by simp only [Range.hull]; omega) others

/-- Ranges stay in order and apart. -/
theorem Apart.insert (apart : Apart rs) (some : r.start < r.stop) : Apart (insert r rs) := by
  fun_induction RangeSet.insert r rs with
  | case1 r => simpa [Apart] using some
  | case2 r s rest behind ih =>
    obtain ⟨here, gaps, rest⟩ := apart_cons.1 apart
    exact apart_cons.2 ⟨here, lt_start_of_mem_insert behind gaps, ih rest some⟩
  | case3 r s rest behind before =>
    obtain ⟨here, gaps, -⟩ := apart_cons.1 apart
    refine apart_cons.2 ⟨some, List.forall_mem_cons.2 ⟨before, fun t member => ?_⟩, apart⟩
    have := gaps t member
    omega
  | case4 r s rest behind before ih =>
    exact ih (apart_cons.1 apart).2.2 (by simp only [Range.hull]; omega)

theorem mem_add : i ∈ s.add r ↔ i ∈ r ∨ i ∈ s := by
  unfold add
  split
  · rename_i none
    simp only [Range.mem_iff]
    exact ⟨.inr, fun either => either.resolve_left (by omega)⟩
  · exact holds_insert r s.ranges

theorem Ordered.empty : empty.Ordered := ⟨by simp [RangeSet.empty], .nil⟩

theorem Ordered.add (ordered : s.Ordered) (r : Range) : (s.add r).Ordered := by
  unfold RangeSet.add
  split
  · exact ordered
  · exact Apart.insert ordered (by omega)

theorem mem_union : i ∈ s.union t ↔ i ∈ s ∨ i ∈ t := by
  have all : ∀ (rs : List Range) (s : RangeSet),
      i ∈ rs.foldl RangeSet.add s ↔ i ∈ s ∨ Holds rs i := by
    intro rs
    induction rs with
    | nil => simp [Holds]
    | cons r rs ih =>
      intro s
      rw [List.foldl_cons, ih, mem_add, holds_cons, or_assoc, or_left_comm]
  exact all t.ranges s

theorem Ordered.union (ordered : s.Ordered) (t : RangeSet) : (s.union t).Ordered := by
  have all : ∀ (rs : List Range) (s : RangeSet), s.Ordered → (rs.foldl RangeSet.add s).Ordered := by
    intro rs
    induction rs with
    | nil => exact fun _ => id
    | cons r rs ih => exact fun s ordered => ih _ (ordered.add r)
  exact all t.ranges s ordered

/-! ## Asking sets -/

theorem Apart.start_le (apart : Apart (r :: rs)) (member : Holds (r :: rs) i) : r.start ≤ i := by
  obtain ⟨some, gaps, -⟩ := apart_cons.1 apart
  rcases holds_cons.1 member with here | ⟨s, later, here⟩
  · exact here.1
  · have gap := gaps s later
    have := here.1
    omega

/-- The range that ends first has nothing in common with the rest of the other list. -/
theorem meet_iff {as bs : List Range} (first : Apart as) (second : Apart bs) :
    meet as bs = true ↔ ∃ i, Holds as i ∧ Holds bs i := by
  fun_induction meet as bs with
  | case1 a as b bs overlap =>
    have someA := (apart_cons.1 first).1
    have someB := (apart_cons.1 second).1
    refine iff_of_true rfl ⟨max a.start b.start, ⟨a, by simp, ?_⟩, b, by simp, ?_⟩
    all_goals
      rw [Range.mem_iff]
      omega
  | case2 a as b bs apart before ih =>
    obtain ⟨someA, -, rest⟩ := apart_cons.1 first
    rw [ih rest second]
    refine ⟨fun ⟨i, left, right⟩ => ⟨i, holds_cons.2 (.inr left), right⟩, ?_⟩
    rintro ⟨i, left, right⟩
    refine ⟨i, (holds_cons.1 left).resolve_left fun here => ?_, right⟩
    rcases holds_cons.1 right with here' | ⟨s, later, here'⟩
    · simp only [Range.mem_iff] at here here'
      omega
    · have gap := (apart_cons.1 second).2.1 s later
      simp only [Range.mem_iff] at here here'
      omega
  | case3 a as b bs apart before ih =>
    obtain ⟨someB, -, rest⟩ := apart_cons.1 second
    rw [ih first rest]
    refine ⟨fun ⟨i, left, right⟩ => ⟨i, left, holds_cons.2 (.inr right)⟩, ?_⟩
    rintro ⟨i, left, right⟩
    refine ⟨i, left, (holds_cons.1 right).resolve_left fun here => ?_⟩
    rcases holds_cons.1 left with here' | ⟨s, later, here'⟩
    · simp only [Range.mem_iff] at here here'
      omega
    · have gap := (apart_cons.1 first).2.1 s later
      simp only [Range.mem_iff] at here here'
      omega
  | case4 as bs none =>
    refine iff_of_false (by simp) ?_
    rintro ⟨i, ⟨a, left, -⟩, b, right, -⟩
    cases as with
    | nil => cases left
    | cons a as =>
      cases bs with
      | nil => cases right
      | cons b bs => exact none a as b bs rfl rfl

theorem Ordered.intersects_iff (left : s.Ordered) (right : t.Ordered) :
    s.intersects t = true ↔ ∃ i, i ∈ s ∧ i ∈ t :=
  meet_iff left right

/-- The walk over ordered ranges decides membership. -/
theorem Apart.covers_iff (apart : Apart rs) : covers ⟨rs⟩ i = true ↔ Holds rs i := by
  induction rs with
  | nil => simp [covers, Holds]
  | cons r rs ih =>
    obtain ⟨some, gaps, rest⟩ := apart_cons.1 apart
    rw [holds_cons, Range.mem_iff]
    by_cases ends : i < r.stop
    · -- the ranges behind the first one that ends behind the integer start behind it
      have later : ¬ Holds rs i := by
        rintro ⟨t, member, here⟩
        have := gaps t member
        have := here.1
        omega
      simp [covers, ends, later]
    · have skipped : covers ⟨r :: rs⟩ i = covers ⟨rs⟩ i := by simp [covers, ends]
      simp [skipped, ih rest, ends]

theorem Ordered.covers_iff (ordered : s.Ordered) : s.covers i = true ↔ i ∈ s :=
  Apart.covers_iff ordered

theorem Ordered.start_le (ordered : s.Ordered) (member : i ∈ s) : s.start ≤ i := by
  obtain ⟨ranges⟩ := s
  cases ranges with
  | nil => exact absurd member (notMem_empty i)
  | cons r rs => exact Apart.start_le ordered member

theorem Ordered.lt_stop (ordered : s.Ordered) (member : i ∈ s) : i < s.stop := by
  obtain ⟨r, known, here⟩ := member
  rcases List.eq_nil_or_concat s.ranges with none | ⟨before, last, whole⟩
  · simp [none] at known
  · have stop : s.stop = last.stop := by simp [RangeSet.stop, whole]
    rw [whole, List.concat_eq_append] at known
    have order : (before ++ [last]).Pairwise fun r s => r.stop < s.start := by
      rw [← List.concat_eq_append, ← whole]
      exact ordered.2
    have some : last.start < last.stop := ordered.1 last (by simp [whole])
    rw [stop]
    rcases List.mem_append.1 known with earlier | same
    · have gap := (List.pairwise_append.1 order).2.2 r earlier last (by simp)
      have := here.2
      omega
    · cases List.mem_singleton.1 same
      exact here.2

end RangeSet

end ImpCompiler
