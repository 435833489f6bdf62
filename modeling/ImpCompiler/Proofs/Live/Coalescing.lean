import ImpCompiler.Proofs.Live.Classes
import Mathlib.Logic.Relation

/-!
# Proofs.Live.Coalescing — joining values keeps classes disjoint

Ranges are added to values, and then values are looked up and joined, in any order and with
any conditions on what may be joined. Throughout, the pointers of joined values have no
cycles, so that both loops of a lookup come to their ends: the one that follows the pointers
(`Reaches`) and the one that shortens them (`Shortens`). `Intervals.Joins` says in full
what joining does: when it succeeds, whose representatives change, and what becomes of the
sets.
-/

namespace ImpCompiler

set_option autoImplicit false

namespace Intervals

variable {parents : Assoc Value Value} {depth : Value → Nat} {v w r : Value} {iv : Intervals}
  {S : Value → Int → Prop} {i : Int} {compatible : Value → Value → Bool}

/-! ## Looking up -/

def Points (parents : Assoc Value Value) (v p : Value) : Prop := parents.lookup v = some p

/-- No value points to itself over others. -/
theorem Descends.acyclic (descends : Descends parents depth) (v : Value) :
    ¬ Relation.TransGen (Points parents) v v := by
  have lower : ∀ {u w}, Relation.TransGen (Points parents) u w → depth w < depth u := by
    intro u w way
    induction way with
    | single points => exact descends.down points
    | tail _ points ih => exact Nat.lt_trans (descends.down points) ih
  exact fun cycle => Nat.lt_irrefl _ (lower cycle)

/-- The values on the way from `v` to `r` get pointers to `r`, one after the other up to the
end of the way. -/
inductive Shortens (r : Value) : Value → Assoc Value Value → Assoc Value Value → Prop
  | done {parents : Assoc Value Value} : Shortens r r parents parents
  | step {v p : Value} {parents last : Assoc Value Value} (inner : v ≠ r)
      (points : parents.lookup v = some p) (rest : Shortens r p (Assoc.set v r parents) last) :
      Shortens r v parents last

/-- Where pointers go down, as many steps as there are pointers lead to the end. -/
theorem Descends.shortens (descends : Descends parents depth) (n : Nat) (enough : depth v ≤ n)
    (way : Reaches parents v r) : Shortens r v parents (Intervals.compress r n v parents) := by
  fun_induction Intervals.compress r n v parents with
  | case1 v parents =>
    cases way with
    | here => exact .done
    | step points =>
      have := descends.down points
      omega
  | case2 => exact .done
  | case3 n v parents inner top =>
    cases way with
    | here => exact absurd rfl inner
    | step points =>
      rw [top] at points
      cases points
  | case4 n v parents inner p points ih =>
    have rest := way.rest inner points
    have lower := descends.down points
    exact .step inner points
      (ih (descends.shorten way points inner) (by omega) (way.shorten inner rest))

/-! ## Joining -/

def HasNumber (iv : Intervals) (v : Value) (i : Int) : Prop := ∃ s, iv.set? v = some s ∧ i ∈ s

theorem hasNumber_iff : iv.HasNumber v i ↔ i ∈ iv.setOf (iv.representative v) := by
  refine ⟨?_, lookup_of_mem_setOf⟩
  rintro ⟨s, known, member⟩
  rw [set?] at known
  simpa [setOf, known] using member

/-- Sets clash if they have a number in common. -/
theorem Sound.clash_iff (sound : iv.Sound S) (a b : Value) :
    clash (iv.sets.lookup (iv.representative a)) (iv.sets.lookup (iv.representative b)) = true ↔
      ∃ i, iv.HasNumber a i ∧ iv.HasNumber b i := by
  constructor
  · intro meets
    cases left : iv.sets.lookup (iv.representative a) with
    | none => simp [left, clash] at meets
    | some s =>
      cases right : iv.sets.lookup (iv.representative b) with
      | none => simp [left, right, clash] at meets
      | some t =>
        rw [left, right, clash] at meets
        obtain ⟨i, inA, inB⟩ :=
          ((sound.ordered left).intersects_iff (sound.ordered right)).1 meets
        exact ⟨i, ⟨s, left, inA⟩, t, right, inB⟩
  · rintro ⟨i, inA, inB⟩
    by_contra apart
    exact sound.disjoint_of_not_clash (by simpa using apart) i (hasNumber_iff.1 inA)
      (hasNumber_iff.1 inB)

/-- What joining two values answers and leaves behind. -/
structure Joins (iv : Intervals) (a b : Value) (compatible : Value → Value → Bool) : Prop where
  /-- It succeeds for values of one class, and for classes that have no number in common and
  whose representatives are compatible. -/
  succeeds : (iv.join a b compatible).1 = true ↔ iv.representative a = iv.representative b ∨
    (¬ ∃ i, iv.HasNumber a i ∧ iv.HasNumber b i) ∧
      compatible (iv.representative a) (iv.representative b) = true
  /-- The values of the class of `b` get the representative of `a`, and no others change theirs. -/
  moved : (iv.join a b compatible).1 = true → ∀ v, (iv.join a b compatible).2.representative v =
    if iv.representative v = iv.representative b then iv.representative a
    else iv.representative v
  /-- The set of the new class has the numbers of both. -/
  united : (iv.join a b compatible).1 = true → ∀ i,
    (iv.join a b compatible).2.HasNumber a i ↔ iv.HasNumber a i ∨ iv.HasNumber b i
  /-- Other classes keep their sets. -/
  others : (iv.join a b compatible).1 = true → ∀ v, iv.representative v ≠ iv.representative a →
    iv.representative v ≠ iv.representative b → (iv.join a b compatible).2.set? v = iv.set? v
  /-- If it fails, no class and no set is different. -/
  refused : (iv.join a b compatible).1 = false →
    (iv.join a b compatible).2.representative = iv.representative ∧
      (iv.join a b compatible).2.sets = iv.sets

/-- Looking up two values of one class joins them to what they are. -/
theorem Sound.joins_same (sound : iv.Sound S) {a b : Value}
    (same : iv.representative a = iv.representative b) : iv.Joins a b compatible := by
  have whole : iv.join a b compatible = (true, iv.findBoth a b) := by
    rw [sound.join_eq, if_pos same]
  have reps := sound.findBoth_representative a b
  have sets : (iv.findBoth a b).set? = iv.set? := by
    funext v
    rw [set?, set?, reps]
    rfl
  constructor
  all_goals rw [whole]
  · exact iff_of_true rfl (.inl same)
  · intro _ v
    rw [reps]
    split
    · rename_i isB
      rw [isB, same]
    · rfl
  · intro _ i
    simp only [HasNumber, sets]
    simp only [set?, same, or_self]
  · intro _ v _ _
    rw [sets]
  · intro failed
    cases failed

/-- Sets that have a number in common, or representatives that are not compatible, are left
alone. -/
theorem Sound.joins_refused (sound : iv.Sound S) {a b : Value}
    (other : iv.representative a ≠ iv.representative b)
    (bars : (∃ i, iv.HasNumber a i ∧ iv.HasNumber b i) ∨
      compatible (iv.representative a) (iv.representative b) = false) : iv.Joins a b compatible := by
  have whole : iv.join a b compatible = (false, iv.findBoth a b) := by
    rw [sound.join_eq, if_neg other]
    split
    · rfl
    · rename_i apart
      rw [sound.clash_iff] at apart
      rw [if_pos (by simp [bars.resolve_left apart])]
  constructor
  all_goals rw [whole]
  · refine iff_of_false (by simp) ?_
    rintro (same | ⟨apart, fits⟩)
    · exact other same
    · rcases bars with common | unfit
      · exact apart common
      · rw [unfit] at fits
        cases fits
  · intro succeeded
    cases succeeded
  · intro succeeded
    cases succeeded
  · intro succeeded
    cases succeeded
  · exact fun _ => ⟨sound.findBoth_representative a b, rfl⟩

/-- Classes without common numbers and with compatible representatives are linked. -/
theorem Sound.joins_linked (sound : iv.Sound S) {a b : Value}
    (other : iv.representative a ≠ iv.representative b)
    (apart : ¬ ∃ i, iv.HasNumber a i ∧ iv.HasNumber b i)
    (fits : compatible (iv.representative a) (iv.representative b) = true) :
    iv.Joins a b compatible := by
  have whole : iv.join a b compatible =
      (true, (iv.findBoth a b).link (iv.representative a) (iv.representative b)) := by
    rw [sound.join_eq, if_neg other, if_neg fun meets => apart ((sound.clash_iff a b).1 meets),
      if_neg (by simp [fits])]
  have reps := sound.findBoth_representative a b
  have moved := ((sound.findBoth a b).link_descends (by rw [reps, sound.top]) (by rw [reps, sound.top])
    other).2
  rw [reps] at moved
  constructor
  all_goals rw [whole]
  · exact iff_of_true rfl (.inr ⟨apart, fits⟩)
  · exact fun _ => moved
  · intro _ i
    rw [hasNumber_iff, hasNumber_iff, hasNumber_iff, moved, if_neg other, mem_link_setOf other]
    simp only [ne_eq, other, not_false_eq_true, true_and]
    rfl
  · intro _ v notA notB
    rw [set?, set?, moved, if_neg notB, lookup_link, if_neg notB, if_neg (by simp [notA])]
    rfl
  · intro failed
    cases failed

theorem Sound.joins (sound : iv.Sound S) (a b : Value) (compatible : Value → Value → Bool) :
    iv.Joins a b compatible := by
  by_cases same : iv.representative a = iv.representative b
  · exact sound.joins_same same
  · by_cases common : ∃ i, iv.HasNumber a i ∧ iv.HasNumber b i
    · exact sound.joins_refused same (.inl common)
    · cases fits : compatible (iv.representative a) (iv.representative b) with
      | false => exact sound.joins_refused same (.inr fits)
      | true => exact sound.joins_linked same common fits

/-! ## Sequences of lookups and joins -/

/-- A lookup or a join, with a condition of its own on representatives. -/
inductive Operation where
  | find (v : Value)
  | join (a b : Value) (compatible : Value → Value → Bool)

def Operation.perform (iv : Intervals) : Operation → Intervals
  | .find v => (iv.find v).2
  | .join a b compatible => (iv.join a b compatible).2

/-- The intervals after ranges were added and values then looked up and joined. -/
def after (function : Text) (ranges : List (Value × Range)) (operations : List Operation) :
    Intervals :=
  operations.foldl Operation.perform
    (ranges.foldl (fun iv p => iv.add p.1 p.2) (Intervals.empty function))

def Added (ranges : List (Value × Range)) (v : Value) (i : Int) : Prop :=
  ∃ r, (v, r) ∈ ranges ∧ i ∈ r

theorem Sound.perform (sound : iv.Sound S) (operation : Operation) :
    (operation.perform iv).Sound S := by
  cases operation with
  | find v => exact sound.find v
  | join a b compatible => exact sound.join a b compatible

theorem Sound.after (function : Text) (ranges : List (Value × Range)) (operations : List Operation) :
    (after function ranges operations).Sound (Added ranges) := by
  refine List.foldlRecOn (motive := fun iv : Intervals => iv.Sound (Added ranges)) operations _
    (Sound.adds function ranges) fun iv sound operation _ => ?_
  exact sound.perform operation

/-- Classes of values, each with the numbers of its values, none of which belongs to two. -/
structure Coalesced (iv : Intervals) (numbers : Value → Int → Prop) : Prop where
  /-- Pointers have no cycles. -/
  acyclic : ∀ v, ¬ Relation.TransGen (Points iv.parents) v v
  /-- The loops of a lookup come to their ends. -/
  finds : ∀ v, Reaches iv.parents v (iv.find v).1 ∧
    Shortens (iv.find v).1 v iv.parents (iv.find v).2.parents
  /-- A lookup changes no representative and no set. -/
  keeps : ∀ v, (iv.find v).2.representative = iv.representative ∧ (iv.find v).2.sets = iv.sets
  /-- Only representatives have sets. -/
  owners : ∀ r s, iv.sets.lookup r = some s → iv.representative r = r
  /-- The set of a class has the numbers of its values. -/
  holds : ∀ v i, iv.HasNumber v i ↔ ∃ w, iv.representative w = iv.representative v ∧ numbers w i
  /-- Two values of a class have no number in common. -/
  disjoint : ∀ v w, v ≠ w → iv.representative v = iv.representative w →
    ∀ i, numbers v i → ¬ numbers w i

theorem Sound.coalesced (sound : iv.Sound S) : iv.Coalesced S := by
  obtain ⟨depth, descends⟩ := sound.descends
  constructor
  · exact descends.acyclic
  · intro v
    have way := descends.representative v
    exact ⟨way, descends.shortens _ (descends.bound v) way⟩
  · exact fun v => ⟨sound.find_representative v, rfl⟩
  · exact fun r s => sound.owners
  · exact fun v i => hasNumber_iff.trans (sound.holds _ i)
  · exact fun v w other same i first second => other (sound.apart same first second)

end Intervals

open Intervals in
/-- Joining values keeps their classes disjoint. However values are looked up and joined after
ranges were added to them, pointers have no cycles and lookups end without changing a class;
only representatives have sets; the set of a class has the numbers that were added for its
values, none of them for two; and a further join succeeds just if the values are in one class
already or their classes have no number in common and may be joined, moves the class of the
second value to that of the first and no other, and changes nothing if it fails. -/
theorem coalescing_keeps_classes_disjoint (function : Text) (ranges : List (Value × Range))
    (operations : List Operation) :
    (after function ranges operations).Coalesced (Added ranges) ∧
      ∀ a b compatible, (after function ranges operations).Joins a b compatible := by
  have sound := Sound.after function ranges operations
  exact ⟨sound.coalesced, sound.joins⟩

/-- A value is refused for a number of another one in the class. -/
example : ((((((Intervals.empty "f").add 1 ⟨0, 2⟩).add 2 ⟨2, 4⟩).add 3 ⟨1, 2⟩).join 1 2
    fun _ _ => true).2.join 3 2 fun _ _ => true).1 = false := by decide +kernel

end ImpCompiler
