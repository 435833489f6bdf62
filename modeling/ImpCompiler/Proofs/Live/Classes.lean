import ImpCompiler.Live.Intervals
import ImpCompiler.Proofs.Basics
import ImpCompiler.Proofs.Live.RangeSet

/-!
# Proofs.Live.Classes — classes of values that are joined

The pointers of joined values have no cycles, so following them leads to the
representative of a class (`Descends.representative`), and shortening them keeps it
(`find_representative`). The set of a representative has the numbers of all values of
its class, and no number belongs to two values of a class: `Intervals.Sound` says so of
intervals to whose values the numbers `S` were added, and joining classes keeps it.
-/

namespace ImpCompiler.Intervals

set_option autoImplicit false

/-! ## Pointers -/

/-- The pointers from a value lead to one that has none. -/
inductive Reaches (parents : Assoc Value Value) : Value → Value → Prop
  | here {r : Value} (top : parents.lookup r = none) : Reaches parents r r
  | step {v p r : Value} (points : parents.lookup v = some p) (rest : Reaches parents p r) :
      Reaches parents v r

/-- Pointers go down, from no higher than their number. -/
structure Descends (parents : Assoc Value Value) (depth : Value → Nat) : Prop where
  down : ∀ {v p}, parents.lookup v = some p → depth p < depth v
  flat : ∀ {v}, parents.lookup v = none → depth v = 0
  bound : ∀ v, depth v ≤ parents.length

variable {parents : Assoc Value Value} {depth : Value → Nat} {u v q r a b : Value} {iv : Intervals}
  {S : Value → Int → Prop}

theorem Reaches.top (reaches : Reaches parents v r) : parents.lookup r = none := by
  induction reaches with
  | here top => exact top
  | step _ _ ih => exact ih

/-- The pointers lead to one end. -/
theorem Reaches.unique (first : Reaches parents v r) (second : Reaches parents v q) : r = q := by
  induction first with
  | here top =>
    cases second with
    | here => rfl
    | step points => rw [top] at points; cases points
  | step points _ ih =>
    cases second with
    | here top => rw [top] at points; cases points
    | step points' rest =>
      rw [points] at points'
      cases points'
      exact ih rest

/-- The way of a value goes on from the one that it points to. -/
theorem Reaches.rest {p : Value} (reaches : Reaches parents v r) (inner : v ≠ r)
    (points : parents.lookup v = some p) : Reaches parents p r := by
  cases reaches with
  | here => exact absurd rfl inner
  | step points' rest =>
    rw [points] at points'
    cases points'
    exact rest

/-- Pointers lead down. -/
theorem Reaches.eq_or_lt (reaches : Reaches parents v r) (descends : Descends parents depth) :
    v = r ∨ depth r < depth v := by
  induction reaches with
  | here => exact .inl rfl
  | step points _ ih =>
    have first := descends.down points
    rcases ih with rfl | later
    · exact .inr first
    · exact .inr (Nat.lt_trans later first)

/-- Following the pointers as often as the depth says gets to the end. -/
theorem Descends.root (descends : Descends parents depth) (n : Nat) (enough : depth v ≤ n) :
    Reaches parents v (root parents n v) := by
  induction n generalizing v with
  | zero =>
    refine .here ?_
    cases points : parents.lookup v with
    | none => rfl
    | some p =>
      have := descends.down points
      omega
  | succ n ih =>
    rw [Intervals.root]
    cases points : parents.lookup v with
    | none => exact .here points
    | some p =>
      have := descends.down points
      exact .step points (ih (by omega))

theorem Descends.representative (descends : Descends iv.parents depth) (v : Value) :
    Reaches iv.parents v (iv.representative v) :=
  descends.root _ (descends.bound v)

/-! ## Shorter ways -/

/-- A pointer to the end of the way changes no end. -/
theorem Reaches.shorten (way : Reaches parents v r) (inner : v ≠ r) (reaches : Reaches parents u q) :
    Reaches (Assoc.set v r parents) u q := by
  have end' : Reaches (Assoc.set v r parents) v r := by
    refine .step (by simp [Assoc.lookup_set]) (.here ?_)
    simp [Assoc.lookup_set, inner.symm, way.top]
  induction reaches with
  | @here w top =>
    by_cases same : w = v
    · subst same
      cases way with
      | here => exact absurd rfl inner
      | step points => rw [top] at points; cases points
    · exact .here (by simp [Assoc.lookup_set, same, top])
  | @step w p q points rest ih =>
    by_cases same : w = v
    · subst same
      rwa [Reaches.unique (.step points rest) way]
    · exact .step (by simp [Assoc.lookup_set, same, points]) ih

/-- A value on the way may point to the end at once. -/
theorem Descends.shorten (descends : Descends parents depth) (way : Reaches parents v r)
    {p : Value} (points : parents.lookup v = some p) (inner : v ≠ r) :
    Descends (Assoc.set v r parents) depth where
  down {w p} points' := by
    rw [Assoc.lookup_set] at points'
    split at points'
    · rename_i same
      cases eq_of_beq same
      cases points'
      exact (way.eq_or_lt descends).resolve_left inner
    · exact descends.down points'
  flat {w} top := by
    rw [Assoc.lookup_set] at top
    split at top
    · cases top
    · exact descends.flat top
  bound w := by
    rw [Assoc.length_set_of_lookup points]
    exact descends.bound w

theorem Descends.compress (descends : Descends parents depth) (n : Nat)
    (way : Reaches parents v r) : Descends (compress r n v parents) depth ∧
      ∀ {u q}, Reaches parents u q → Reaches (Intervals.compress r n v parents) u q := by
  fun_induction Intervals.compress r n v parents with
  | case1 | case2 | case3 => exact ⟨descends, id⟩
  | case4 n v parents inner p points ih =>
    have rest := way.rest inner points
    obtain ⟨descends', keeps⟩ := ih (descends.shorten way points inner) (way.shorten inner rest)
    exact ⟨descends', fun reaches => keeps (way.shorten inner reaches)⟩

/-- Looking for a representative changes no representative. -/
theorem Descends.find (descends : Descends iv.parents depth) (v : Value) :
    Descends (iv.find v).2.parents depth ∧
      (iv.find v).2.representative = iv.representative := by
  obtain ⟨descends', keeps⟩ := descends.compress iv.parents.length (descends.representative v)
  have found : Descends (iv.find v).2.parents depth := descends'
  refine ⟨found, funext fun u => ?_⟩
  exact (found.representative u).unique (keeps (descends.representative u))

/-! ## Sets of classes -/

/-- The set of a representative; without one it is empty. -/
def setOf (iv : Intervals) (r : Value) : RangeSet := (iv.sets.lookup r).getD RangeSet.empty

theorem lookup_of_mem_setOf {i : Int} (member : i ∈ iv.setOf r) :
    ∃ s, iv.sets.lookup r = some s ∧ i ∈ s := by
  cases known : iv.sets.lookup r with
  | none =>
    rw [setOf, known] at member
    exact absurd member (RangeSet.notMem_empty i)
  | some s => exact ⟨s, rfl, by simpa [setOf, known] using member⟩

/-- The numbers `S` were added to values, and values with different numbers were joined. -/
structure Sound (iv : Intervals) (S : Value → Int → Prop) : Prop where
  descends : ∃ depth, Descends iv.parents depth
  keyed : Assoc.Keyed iv.sets
  /-- Only representatives have sets. -/
  owners : ∀ {r s}, iv.sets.lookup r = some s → iv.representative r = r
  ordered : ∀ {r s}, iv.sets.lookup r = some s → s.Ordered
  holds : ∀ r i, i ∈ iv.setOf r ↔ ∃ v, iv.representative v = r ∧ S v i
  apart : ∀ {v w i}, iv.representative v = iv.representative w → S v i → S w i → v = w

namespace Sound

variable {S : Value → Int → Prop}

theorem empty (function : Text) : (Intervals.empty function).Sound fun _ _ => False where
  descends := ⟨fun _ => 0, by simp [Intervals.empty], fun _ => rfl, fun _ => Nat.zero_le _⟩
  keyed := .nil
  owners known := by cases known
  ordered known := by cases known
  holds r i := by simpa [setOf, Intervals.empty] using RangeSet.notMem_empty i
  apart _ first := first.elim

theorem congr {S' : Value → Int → Prop} (sound : iv.Sound S) (same : ∀ v i, S v i ↔ S' v i) :
    iv.Sound S' := by
  obtain rfl : S = S' := funext fun v => funext fun i => propext (same v i)
  exact sound

theorem top (sound : iv.Sound S) (v : Value) :
    iv.representative (iv.representative v) = iv.representative v := by
  obtain ⟨depth, descends⟩ := sound.descends
  exact (descends.representative _).unique (.here (descends.representative v).top)

/-- Looking for a representative changes no class. -/
theorem find (sound : iv.Sound S) (v : Value) : (iv.find v).2.Sound S := by
  obtain ⟨depth, descends⟩ := sound.descends
  obtain ⟨descends', same⟩ := descends.find v
  refine ⟨⟨depth, descends'⟩, sound.keyed, fun known => ?_, sound.ordered, fun r i => ?_, fun equal => ?_⟩
  · rw [same]
    exact sound.owners known
  · rw [same]
    exact sound.holds r i
  · rw [same] at equal
    exact sound.apart equal

theorem find_representative (sound : iv.Sound S) (v : Value) :
    (iv.find v).2.representative = iv.representative := by
  obtain ⟨depth, descends⟩ := sound.descends
  exact (descends.find v).2

theorem setOf_ordered (sound : iv.Sound S) (r : Value) : (iv.setOf r).Ordered := by
  unfold setOf
  cases known : iv.sets.lookup r with
  | none => exact RangeSet.Ordered.empty
  | some s => exact sound.ordered known

/-- Before values are joined, each one is alone. -/
theorem representative_single (single : iv.parents = []) (v : Value) : iv.representative v = v := by
  simp [representative, root, single]

/-- Before values are joined, a range goes to the set of its value. -/
theorem add_eq (single : iv.parents = []) (v : Value) (r : Range) :
    iv.add v r = { iv with sets := Assoc.set v ((iv.setOf v).add r) iv.sets } := by
  simp [Intervals.add, Intervals.find, representative, root, single, compress, setOf]

/-- Before values are joined, a number is added to its value only. -/
theorem add (sound : iv.Sound S) (single : iv.parents = []) (v : Value) (r : Range) :
    (iv.add v r).Sound (fun w i => S w i ∨ (w = v ∧ i ∈ r)) ∧ (iv.add v r).parents = [] := by
  have self := representative_single single
  rw [add_eq single]
  refine ⟨⟨sound.descends, sound.keyed.set _ _, fun _ => self _, fun {q s} known => ?_, fun q i => ?_,
    fun {u w i} same _ _ => ?_⟩, single⟩
  · simp only [Assoc.lookup_set] at known
    split at known
    · cases known
      exact (sound.setOf_ordered v).add r
    · exact sound.ordered known
  · have before := sound.holds q i
    change _ ↔ ∃ w, iv.representative w = q ∧ (S w i ∨ w = v ∧ i ∈ r)
    simp only [self, exists_eq_left] at before ⊢
    rw [← before, setOf, Assoc.lookup_set]
    split
    · rename_i same
      simp [eq_of_beq same, RangeSet.mem_add, or_comm]
    · rename_i other
      have other : q ≠ v := by simpa using other
      simp [other, setOf]
  · exact (self u).symm.trans (same.trans (self w))

/-- The numbers of values after the ranges of a list were added. -/
theorem adds (function : Text) (ranges : List (Value × Range)) :
    (ranges.foldl (fun iv p => iv.add p.1 p.2) (Intervals.empty function)).Sound
      (fun v i => ∃ r, (v, r) ∈ ranges ∧ i ∈ r) := by
  have all : ∀ (ranges : List (Value × Range)) (iv : Intervals) (S : Value → Int → Prop),
      iv.Sound S → iv.parents = [] → (ranges.foldl (fun iv p => iv.add p.1 p.2) iv).Sound
        (fun v i => S v i ∨ ∃ r, (v, r) ∈ ranges ∧ i ∈ r) := by
    intro ranges
    induction ranges with
    | nil => exact fun iv S sound _ => by simpa using sound
    | cons p ranges ih =>
      intro iv S sound single
      obtain ⟨sound', single'⟩ := sound.add single p.1 p.2
      refine (ih _ _ sound' single').congr fun v i => ?_
      obtain ⟨w, t⟩ := p
      constructor
      · rintro ((old | ⟨rfl, here⟩) | ⟨r, member, here⟩)
        · exact .inl old
        · exact .inr ⟨t, by simp, here⟩
        · exact .inr ⟨r, List.mem_cons_of_mem _ member, here⟩
      · rintro (old | ⟨r, member, here⟩)
        · exact .inl (.inl old)
        · rcases List.mem_cons.1 member with same | member
          · cases same
            exact .inl (.inr ⟨rfl, here⟩)
          · exact .inr ⟨r, member, here⟩
  exact (all ranges _ _ (empty function) rfl).congr fun v i => by simp

/-- Adding ranges joins no values. -/
theorem adds_parents (function : Text) (ranges : List (Value × Range)) :
    (ranges.foldl (fun iv p => iv.add p.1 p.2) (Intervals.empty function)).parents = [] := by
  refine List.foldlRecOn (motive := fun iv : Intervals => iv.parents = []) ranges _ rfl
    fun iv single p _ => ?_
  rw [add_eq single, single]

/-- The values that have a set are those to which a range was added, even if it is empty. -/
theorem adds_lookup (function : Text) {ranges : List (Value × Range)} :
    (∃ s, (ranges.foldl (fun iv p => iv.add p.1 p.2) (Intervals.empty function)).sets.lookup v = some s) ↔
      ∃ t, (v, t) ∈ ranges := by
  have all : ∀ (ranges : List (Value × Range)) (iv : Intervals), iv.parents = [] →
      ((∃ s, (ranges.foldl (fun iv p => iv.add p.1 p.2) iv).sets.lookup v = some s) ↔
        (∃ s, iv.sets.lookup v = some s) ∨ ∃ t, (v, t) ∈ ranges) := by
    intro ranges
    induction ranges with
    | nil => simp
    | cons p ranges ih =>
      intro iv single
      obtain ⟨w, r⟩ := p
      rw [List.foldl_cons, ih (iv.add w r) (by rw [add_eq single, single]), add_eq single,
        Assoc.lookup_set]
      by_cases here : v = w
      · simp [here]
      · simp [here]
  simpa [Intervals.empty] using all ranges (Intervals.empty function) rfl

end Sound

/-! ## Joining classes -/

/-- A class that gets a pointer to another one becomes part of it. -/
theorem Reaches.link (topA : parents.lookup a = none) (topB : parents.lookup b = none)
    (other : a ≠ b) (reaches : Reaches parents v r) :
    Reaches (Assoc.set b a parents) v (if r = b then a else r) := by
  induction reaches with
  | @here r top =>
    split
    · rename_i same
      subst same
      exact .step (by simp [Assoc.lookup_set]) (.here (by simp [Assoc.lookup_set, other, topA]))
    · rename_i ne
      exact .here (by simp [Assoc.lookup_set, ne, top])
  | @step v p r points _ ih =>
    have ne : v ≠ b := by
      rintro rfl
      rw [topB] at points
      cases points
    exact .step (by simp [Assoc.lookup_set, ne, points]) ih

/-- Two ends are joined without a cycle. -/
theorem Descends.link (descends : Descends iv.parents depth)
    (topA : iv.parents.lookup a = none) (topB : iv.parents.lookup b = none) (other : a ≠ b) :
    Descends (Assoc.set b a iv.parents)
      (fun v => if iv.representative v = b then depth v + 1 else depth v) where
  down {v p} points := by
    rw [Assoc.lookup_set] at points
    split at points
    · rename_i same
      cases eq_of_beq same
      cases points
      have selfA := (descends.representative a).unique (.here topA)
      have selfB := (descends.representative b).unique (.here topB)
      simp [selfA, selfB, other, descends.flat topA]
    · have same : iv.representative v = iv.representative p :=
        (descends.representative v).unique (.step points (descends.representative p))
      have := descends.down points
      simp only [same]
      split <;> omega
  flat {v} top := by
    rw [Assoc.lookup_set] at top
    split at top
    · cases top
    · rename_i ne
      have self := (descends.representative v).unique (.here top)
      rw [self, if_neg (by simpa using ne)]
      exact descends.flat top
  bound v := by
    rw [Assoc.length_set_of_none topB]
    have := descends.bound v
    split <;> omega

/-- The intervals with the class of `b` joined to that of `a`. -/
def link (iv : Intervals) (a b : Value) : Intervals :=
  { iv with
    sets := match iv.sets.lookup b with
      | some t => Assoc.remove b (Assoc.set a ((iv.setOf a).union t) iv.sets)
      | none => iv.sets
    parents := Assoc.set b a iv.parents }

theorem lookup_link (a b q : Value) : (iv.link a b).sets.lookup q =
    if q = b then none
    else if q = a ∧ (iv.sets.lookup b).isSome = true then
      some ((iv.setOf a).union (iv.setOf b))
    else iv.sets.lookup q := by
  cases known : iv.sets.lookup b with
  | none =>
    have same : (iv.link a b).sets = iv.sets := by simp [link, known]
    rw [same]
    split
    · rename_i isB
      rw [isB, known]
    · simp
  | some t =>
    have set : iv.setOf b = t := by simp [setOf, known]
    simp only [link, known, Assoc.lookup_remove, Assoc.lookup_set, beq_iff_eq, set,
      Option.isSome_some, and_true]

/-- Joining moves the numbers of one class to the other. -/
theorem mem_link_setOf (other : a ≠ b) (i : Int) : i ∈ (iv.link a b).setOf q ↔
    q ≠ b ∧ (i ∈ iv.setOf q ∨ (q = a ∧ i ∈ iv.setOf b)) := by
  rw [setOf, lookup_link]
  by_cases isB : q = b
  · simp [isB, RangeSet.notMem_empty]
  · rw [if_neg isB]
    by_cases isA : q = a
    · subst isA
      cases known : iv.sets.lookup b with
      | none => simp [isB, setOf, known, RangeSet.notMem_empty]
      | some t => simp [isB, RangeSet.mem_union]
    · simp [isA, isB, setOf]

/-- The values of the class of `b` are in that of `a` afterwards, and all others where they were. -/
theorem Sound.link_descends (sound : iv.Sound S)
    (topA : iv.representative a = a) (topB : iv.representative b = b) (other : a ≠ b) :
    (∃ depth, Descends (iv.link a b).parents depth) ∧ ∀ v, (iv.link a b).representative v =
      if iv.representative v = b then a else iv.representative v := by
  obtain ⟨depth, descends⟩ := sound.descends
  have noneA : iv.parents.lookup a = none := by
    have := (descends.representative a).top
    rwa [topA] at this
  have noneB : iv.parents.lookup b = none := by
    have := (descends.representative b).top
    rwa [topB] at this
  have descends' : Descends (iv.link a b).parents _ := descends.link noneA noneB other
  exact ⟨⟨_, descends'⟩, fun v => (descends'.representative v).unique
    ((descends.representative v).link noneA noneB other)⟩

/-- Two classes whose sets are disjoint are joined to one. -/
theorem Sound.link (sound : iv.Sound S)
    (topA : iv.representative a = a) (topB : iv.representative b = b) (other : a ≠ b)
    (disjoint : ∀ i, i ∈ iv.setOf a → i ∉ iv.setOf b) : (iv.link a b).Sound S := by
  obtain ⟨descends, whole⟩ := sound.link_descends topA topB other
  refine ⟨descends, ?_, fun {q s} known => ?_, fun {q s} known => ?_, fun q i => ?_,
    fun {v w i} same first second => ?_⟩
  · simp only [Intervals.link]
    split
    · exact (sound.keyed.set _ _).remove _
    · exact sound.keyed
  · rw [whole]
    rw [lookup_link] at known
    split at known
    · cases known
    · rename_i notB
      split at known
      · rename_i isA
        rw [isA.1, topA, if_neg other]
      · rw [sound.owners known, if_neg notB]
  · rw [lookup_link] at known
    split at known
    · cases known
    · split at known
      · cases known
        exact (sound.setOf_ordered a).union _
      · exact sound.ordered known
  · rw [mem_link_setOf other, sound.holds, sound.holds]
    simp only [whole]
    constructor
    · rintro ⟨notB, ⟨v, rfl, number⟩ | ⟨rfl, v, isB, number⟩⟩
      · exact ⟨v, if_neg notB, number⟩
      · exact ⟨v, if_pos isB, number⟩
    · rintro ⟨v, rfl, number⟩
      split
      · rename_i isB
        exact ⟨other, .inr ⟨rfl, v, isB, number⟩⟩
      · rename_i notB
        exact ⟨notB, .inl ⟨v, rfl, number⟩⟩
  · -- values of the two classes have no number in common
    have clash : ∀ {v w}, iv.representative v = a → iv.representative w = b → S v i → S w i → False :=
      fun isA isB first second =>
        disjoint i ((sound.holds a i).2 ⟨_, isA, first⟩) ((sound.holds b i).2 ⟨_, isB, second⟩)
    rw [whole, whole] at same
    split at same <;> split at same
    · rename_i isB isB'
      exact sound.apart (isB.trans isB'.symm) first second
    · rename_i isB _
      exact (clash same.symm isB second first).elim
    · rename_i _ isB
      exact (clash same isB first second).elim
    · exact sound.apart same first second

/-- Sets that clash have a number in common. -/
theorem Sound.disjoint_of_not_clash (sound : iv.Sound S)
    (apart : clash (iv.sets.lookup a) (iv.sets.lookup b) = false) (i : Int)
    (inA : i ∈ iv.setOf a) : i ∉ iv.setOf b := by
  intro inB
  obtain ⟨s, known, member⟩ := lookup_of_mem_setOf inA
  obtain ⟨t, known', member'⟩ := lookup_of_mem_setOf inB
  have meets := ((sound.ordered known).intersects_iff (sound.ordered known')).2 ⟨i, member, member'⟩
  simp [clash, known, known', meets] at apart

def findBoth (iv : Intervals) (a b : Value) : Intervals := ((iv.find a).2.find b).2

theorem Sound.findBoth (sound : iv.Sound S) (a b : Value) : (iv.findBoth a b).Sound S :=
  (sound.find a).find b

theorem Sound.findBoth_representative (sound : iv.Sound S) (a b : Value) :
    (iv.findBoth a b).representative = iv.representative := by
  rw [Intervals.findBoth, (sound.find a).find_representative, sound.find_representative]

/-- Joining does one of three things, by the classes of the values. -/
theorem Sound.join_eq (sound : iv.Sound S) (a b : Value) (compatible : Value → Value → Bool) :
    iv.join a b compatible =
      if iv.representative a = iv.representative b then (true, iv.findBoth a b)
      else if clash (iv.sets.lookup (iv.representative a)) (iv.sets.lookup (iv.representative b)) then
        (false, iv.findBoth a b)
      else if !compatible (iv.representative a) (iv.representative b) then (false, iv.findBoth a b)
      else (true, (iv.findBoth a b).link (iv.representative a) (iv.representative b)) := by
  have found : ((iv.find a).2.find b).1 = iv.representative b :=
    congrFun (sound.find_representative a) b
  rw [Intervals.join]
  simp only [found]
  rfl

/-- Joining links two classes that have no number in common and are compatible, or it changes
no class. -/
theorem Sound.join_cases (sound : iv.Sound S) (a b : Value) (compatible : Value → Value → Bool) :
    ∃ iv' : Intervals, iv'.Sound S ∧ iv'.representative = iv.representative ∧
      ((iv.join a b compatible).2 = iv' ∨ ∃ c d, iv'.representative c = c ∧ iv'.representative d = d ∧
        c ≠ d ∧ (∀ i, i ∈ iv'.setOf c → i ∉ iv'.setOf d) ∧ compatible c d = true ∧
        (iv.join a b compatible).2 = iv'.link c d) := by
  have reps := sound.findBoth_representative a b
  refine ⟨iv.findBoth a b, sound.findBoth a b, reps, ?_⟩
  rw [sound.join_eq]
  split
  · exact .inl rfl
  · rename_i other
    split
    · exact .inl rfl
    · rename_i apart
      split
      · exact .inl rfl
      · rename_i fits
        refine .inr ⟨iv.representative a, iv.representative b, by rw [reps, sound.top],
          by rw [reps, sound.top], other, ?_, by simpa using fits, rfl⟩
        exact sound.disjoint_of_not_clash (by simpa using apart)

/-- Joining classes keeps the sets of classes. -/
theorem Sound.join (sound : iv.Sound S) (a b : Value)
    (compatible : Value → Value → Bool) : (iv.join a b compatible).2.Sound S := by
  obtain ⟨iv', sound', -, same | ⟨c, d, topC, topD, other, disjoint, -, same⟩⟩ :=
    sound.join_cases a b compatible
  · rwa [same]
  · rw [same]
    exact sound'.link topC topD other disjoint

/-- A value whose class has a set is in a class with a set afterwards. -/
theorem Sound.join_set? (sound : iv.Sound S) (a b : Value)
    (compatible : Value → Value → Bool) {s : RangeSet} (known : iv.set? v = some s) :
    ∃ t, (iv.join a b compatible).2.set? v = some t := by
  have reps := sound.findBoth_representative a b
  have found : (iv.findBoth a b).set? v = some s := by
    rw [set?, reps]
    exact known
  rw [sound.join_eq]
  split
  · exact ⟨s, found⟩
  · rename_i other
    split
    · exact ⟨s, found⟩
    · split
      · exact ⟨s, found⟩
      · have joined := ((sound.findBoth a b).link_descends (by rw [reps, sound.top])
          (by rw [reps, sound.top]) other).2 v
        rw [set?] at found
        rw [set?, joined, lookup_link]
        by_cases isB : (iv.findBoth a b).representative v = iv.representative b
        · rw [isB] at found
          simp [isB, other, found]
        · rw [if_neg isB, if_neg isB]
          split
          · exact ⟨_, rfl⟩
          · exact ⟨s, found⟩

/-- What the values of a class share is shared by those of a joined one, if only classes that
share it are compatible. -/
theorem Sound.join_shared {α : Type} {shared : Value → α} (sound : iv.Sound S)
    (a b : Value) {compatible : Value → Value → Bool}
    (fits : ∀ {c d}, compatible c d = true → shared c = shared d)
    (before : ∀ v, shared (iv.representative v) = shared v) (v : Value) :
    shared ((iv.join a b compatible).2.representative v) = shared v := by
  obtain ⟨iv', sound', reps, same | ⟨c, d, topC, topD, other, -, compatible, same⟩⟩ :=
    sound.join_cases a b compatible
  · rw [same, reps, before]
  · rw [same, (sound'.link_descends topC topD other).2, reps]
    split
    · rename_i isD
      rw [fits compatible, ← isD, before]
    · exact before v

/-- The values that own sets are among those of `D`, whose classes are represented by such. -/
structure OwnedBy (iv : Intervals) (D : Value → Prop) : Prop where
  owner : ∀ {v s}, iv.sets.lookup v = some s → D v
  represented : ∀ {v}, D v → D (iv.representative v)

/-- Joining keeps representatives among the values of `D`. -/
theorem Sound.join_ownedBy {D : Value → Prop} (sound : iv.Sound S)
    (owned : iv.OwnedBy D) {a : Value} (inside : D a) (b : Value) (compatible : Value → Value → Bool) :
    (iv.join a b compatible).2.OwnedBy D := by
  have reps := sound.findBoth_representative a b
  have found : (iv.findBoth a b).OwnedBy D := ⟨owned.owner, reps ▸ owned.represented⟩
  rw [sound.join_eq]
  split
  · exact found
  · rename_i other
    split
    · exact found
    · split
      · exact found
      · have whole := ((sound.findBoth a b).link_descends (by rw [reps, sound.top])
          (by rw [reps, sound.top]) other).2
        refine ⟨fun {v s} known => ?_, fun {v} member => ?_⟩
        · rw [lookup_link] at known
          split at known
          · cases known
          · split at known
            · rename_i isA
              exact isA.1 ▸ owned.represented inside
            · exact owned.owner known
        · rw [whole]
          split
          · exact owned.represented inside
          · exact found.represented member

end ImpCompiler.Intervals
