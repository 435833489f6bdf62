import ImpCompiler.Machine.LinearScan
import ImpCompiler.Proofs.Live.Classes
import ImpCompiler.Proofs.Semantics.Machine
import Mathlib.Data.List.Pairwise

/-!
# Proofs.Machine.LinearScan — places that are live at once are different

The scan goes through sets of numbers by their starts. Behind each step every value so
far has a place, and of values with the same place one ends before the other starts
(`Scan.Keeps`): a register that is handed out belonged to values whose sets end before the
new one starts, or to the one that goes to a spill slot instead. So values that are live at
a number have different places (`Func.scan_apart`), whether they were joined or not.
-/

namespace ImpCompiler

set_option autoImplicit false

/-! ## Register files -/

namespace RegisterFile

variable {file : RegisterFile} {r reg : Register} {c : RegClass}

/-- Registers of a class come from the bank of the class. -/
def Classed (file : RegisterFile) : Prop := ∀ c, (file.bank c).cls = c

def Uses (file : RegisterFile) (r : Register) : Prop := r.number ∈ (file.bank r.cls).used

theorem bank_setBank (b : Bank) (c d : RegClass) :
    (file.setBank b c).bank d = if d = c then b else file.bank d := by
  cases c <;> cases d <;> rfl

theorem Classed.setBank (classed : file.Classed) {b : Bank} (same : b.cls = (file.bank c).cls) :
    (file.setBank b c).Classed := by
  intro d
  rw [bank_setBank]
  split
  · rename_i here
    rw [same, classed, here]
  · exact classed d

theorem uses_of_cell (same : r.cell = reg.cell) (used : file.Uses r) : file.Uses reg := by
  obtain ⟨cls, number⟩ := Cell.register.inj same
  rwa [Uses, ← cls, ← number]

/-- Freeing a register frees that one only. -/
theorem uses_free (n : Nat) :
    (file.free c n).Uses r ↔ file.Uses r ∧ ¬ (r.cls = c ∧ r.number = n) := by
  rw [Uses, Uses, free, bank_setBank]
  by_cases here : r.cls = c
  · subst here
    simp only [Bank.free, if_true, List.mem_filter, bne_iff_ne, true_and]
    exact and_congr_right fun _ => by omega
  · simp [here]

/-- A register that is handed out was not in use, and is in use afterwards. -/
theorem Classed.next (classed : file.Classed) (handed : (file.next c).1 = some reg) :
    ¬ file.Uses reg ∧ (file.next c).2.Classed ∧ (file.next c).2.Uses reg ∧
      ∀ r, file.Uses r → (file.next c).2.Uses r := by
  unfold RegisterFile.next Bank.next at handed ⊢
  cases found : (file.bank c).temps.find? fun n => !(file.bank c).used.contains n with
  | none =>
    rw [found] at handed
    cases handed
  | some n =>
    rw [found] at handed
    cases handed
    have new : n ∉ (file.bank c).used := by simpa using List.find?_some found
    have cls : ((file.bank c).register n).cls = c := classed c
    refine ⟨?_, classed.setBank rfl, ?_, fun r used => ?_⟩
    · rw [Uses, cls]
      exact new
    · rw [Uses, bank_setBank, if_pos cls]
      exact List.mem_cons_self
    · rw [Uses, bank_setBank]
      split
      · rename_i here
        rw [Uses, here] at used
        exact List.mem_cons_of_mem _ used
      · exact used

/-- Only the register that is handed out comes to be in use. -/
theorem Classed.uses_of_next (classed : file.Classed) (handed : (file.next c).1 = some reg)
    (used : (file.next c).2.Uses r) : file.Uses r ∨ reg.cell = r.cell := by
  unfold RegisterFile.next Bank.next at handed used
  cases found : (file.bank c).temps.find? fun n => !(file.bank c).used.contains n with
  | none =>
    rw [found] at handed
    cases handed
  | some n =>
    rw [found] at handed used
    cases handed
    rw [Uses, bank_setBank] at used
    split at used
    · rename_i here
      rcases List.mem_cons.1 used with same | old
      · refine .inr ?_
        rw [Register.cell, Register.cell, here, same]
        exact congrArg (Cell.register · n) (classed c)
      · exact .inl (by rwa [Uses, here])
    · exact .inl used

/-- Registers stay in use while others are taken back. -/
theorem frees (ended : List Active) (classed : file.Classed) :
    (ended.foldl (fun file a => file.free a.reg.cls a.reg.number) file).Classed ∧
      ∀ r, (ended.foldl (fun file a => file.free a.reg.cls a.reg.number) file).Uses r ↔
        file.Uses r ∧ ∀ a ∈ ended, a.reg.cell ≠ r.cell := by
  induction ended generalizing file with
  | nil => exact ⟨classed, fun r => by simp⟩
  | cons a ended ih =>
    have next : (file.free a.reg.cls a.reg.number).Classed := classed.setBank rfl
    obtain ⟨classed', keeps⟩ := ih next
    refine ⟨classed', fun r => (keeps r).trans ?_⟩
    have other : ¬ (r.cls = a.reg.cls ∧ r.number = a.reg.number) ↔ a.reg.cell ≠ r.cell := by
      rw [Register.cell, Register.cell, ne_eq, Cell.register.injEq, eq_comm, @eq_comm _ r.number]
    rw [uses_free, other, List.forall_mem_cons, and_assoc]

end RegisterFile

theorem Arch.registers_classed (arch : Arch) : arch.registers.Classed := by
  cases arch <;> intro c <;> cases c <;> rfl

/-! ## The scan -/

namespace Scan

variable {s : Scan} {done : List (Value × RangeSet)} {i : Int} {v : Value} {r : RangeSet}

def cell? (s : Scan) (v : Value) : Option Cell := (s.places.lookup v).bind Loc.cell?

/-- A scan that has places for the values in `done`, up to the number `i`. -/
structure Keeps (s : Scan) (done : List (Value × RangeSet)) (i : Int) : Prop where
  classed : s.file.Classed
  /-- What is active has its register, which nothing else that is active has. -/
  active : ∀ a ∈ s.active, s.places.lookup a.value = some (.register a.reg) ∧ s.file.Uses a.reg
  distinct : s.active.Pairwise fun a b => a.reg.cell ≠ b.reg.cell
  placed : ∀ {v r}, (v, r) ∈ done → ∃ k, s.cell? v = some k
  known : ∀ {v loc}, s.places.lookup v = some loc → ∃ r, (v, r) ∈ done
  spills : ∀ {v k}, s.places.lookup v = some (.spill k) → k < s.spilled
  /-- What has a register and is not active has ended. -/
  ended : ∀ {v r reg}, (v, r) ∈ done → s.places.lookup v = some (.register reg) →
    r.stop ≤ i ∨ ∃ a ∈ s.active, a.value = v ∧ a.stop = r.stop
  apart : ∀ {v w r t}, (v, r) ∈ done → (w, t) ∈ done → v ≠ w → s.cell? v = s.cell? w →
    r.stop ≤ t.start ∨ t.stop ≤ r.start

theorem mem_assign {a b : Active} : b ∈ (s.assign a).active ↔ b = a ∨ b ∈ s.active :=
  (insertSorted_perm _ _).mem_iff.trans List.mem_cons

theorem lookup_assign (a : Active) (w : Value) :
    (s.assign a).places.lookup w =
      if w = a.value then some (.register a.reg) else s.places.lookup w := by
  rw [assign, Assoc.lookup_set]
  by_cases same : w = a.value <;> simp [same]

theorem lookup_spill (w : Value) :
    (s.spill v).places.lookup w = if w = v then some (.spill s.spilled) else s.places.lookup w := by
  rw [spill, Assoc.lookup_set]
  by_cases same : w = v <;> simp [same]

theorem cell?_assign (a : Active) (w : Value) :
    (s.assign a).cell? w = if w = a.value then some a.reg.cell else s.cell? w := by
  rw [cell?, lookup_assign]
  split <;> rfl

theorem cell?_spill (w : Value) :
    (s.spill v).cell? w = if w = v then some (.spill s.spilled) else s.cell? w := by
  rw [cell?, lookup_spill]
  split <;> rfl

theorem lookup_of_cell?_register {reg : Register} (here : s.cell? v = some reg.cell) :
    ∃ reg', s.places.lookup v = some (.register reg') ∧ reg'.cell = reg.cell := by
  obtain ⟨loc, known, cell⟩ := Option.bind_eq_some_iff.1 here
  cases loc with
  | unassigned => cases cell
  | register reg' => exact ⟨reg', known, Option.some.inj cell⟩
  | spill k => cases cell

theorem lookup_of_cell?_spill {k : Nat} (here : s.cell? v = some (.spill k)) :
    s.places.lookup v = some (.spill k) := by
  obtain ⟨loc, known, cell⟩ := Option.bind_eq_some_iff.1 here
  cases loc with
  | unassigned => cases cell
  | register reg => cases cell
  | spill l =>
    cases cell
    exact known

namespace Keeps

theorem start {file : RegisterFile} (classed : file.Classed) (i : Int) :
    (Scan.start file).Keeps [] i where
  classed := classed
  active a member := by cases member
  distinct := .nil
  placed member := by cases member
  known look := by cases look
  spills look := by cases look
  ended member := by cases member
  apart member := by cases member

/-- Active values with the same register are the same. -/
theorem eq_of_cell (keeps : s.Keeps done i) {a b : Active} (first : a ∈ s.active)
    (second : b ∈ s.active) (same : a.reg.cell = b.reg.cell) : a = b := by
  by_contra other
  have : Std.Symm fun a b : Active => a.reg.cell ≠ b.reg.cell := ⟨fun _ _ => Ne.symm⟩
  exact keeps.distinct.forall first second other same

theorem eq_of_value (keeps : s.Keeps done i) {a b : Active} (first : a ∈ s.active)
    (second : b ∈ s.active) (same : a.value = b.value) : a = b := by
  have here := (keeps.active a first).1
  rw [same, (keeps.active b second).1] at here
  exact keeps.eq_of_cell first second (congrArg Register.cell (Loc.register.inj (Option.some.inj here)).symm)

/-- Registers are taken back from values whose sets have ended. -/
theorem expire (keeps : s.Keeps done i) {j : Int} (later : i ≤ j) : (s.expire j).Keeps done j := by
  obtain ⟨classed, used⟩ := RegisterFile.frees (s.active.filter fun a => decide (a.stop ≤ j))
    keeps.classed
  refine ⟨classed, fun a member => ?_, keeps.distinct.sublist List.filter_sublist, keeps.placed,
    keeps.known, keeps.spills, fun {v r reg} inside look => ?_, keeps.apart⟩
  · obtain ⟨member, stays⟩ := List.mem_filter.1 member
    refine ⟨(keeps.active a member).1, (used _).2 ⟨(keeps.active a member).2, fun b ended same => ?_⟩⟩
    obtain ⟨member', goes⟩ := List.mem_filter.1 ended
    rw [keeps.eq_of_cell member' member same] at goes
    simp [goes] at stays
  · rcases keeps.ended inside look with before | ⟨a, member, value, stop⟩
    · exact .inl (Int.le_trans before later)
    · by_cases ends : r.stop ≤ j
      · exact .inl ends
      · refine .inr ⟨a, List.mem_filter.2 ⟨member, ?_⟩, value, stop⟩
        simpa [stop] using ends

/-- The values that had a register which no active value has have ended. -/
theorem stop_le (keeps : s.Keeps done i) {reg : Register}
    (free : ∀ a ∈ s.active, a.reg.cell ≠ reg.cell) (inside : (v, r) ∈ done)
    (cell : s.cell? v = some reg.cell) : r.stop ≤ i := by
  obtain ⟨reg', look, same⟩ := lookup_of_cell?_register cell
  rcases keeps.ended inside look with before | ⟨a, member, rfl, -⟩
  · exact before
  · rw [(keeps.active a member).1] at look
    cases look
    exact absurd same (free a member)

/-- A value gets a register that no active value has. -/
theorem assign (keeps : s.Keeps done i) (new : ∀ t, (v, t) ∉ done) (starts : i ≤ r.start)
    {reg : Register} (used : s.file.Uses reg) (free : ∀ a ∈ s.active, a.reg.cell ≠ reg.cell) :
    (s.assign ⟨v, r.stop, reg⟩).Keeps ((v, r) :: done) i := by
  have other : ∀ {w t}, (w, t) ∈ done → w ≠ v := fun inside same => new _ (same ▸ inside)
  have other' : ∀ a ∈ s.active, a.value ≠ v := fun a member => by
    obtain ⟨t, inside⟩ := keeps.known (keeps.active a member).1
    exact other inside
  have ended : ∀ {w t}, (w, t) ∈ done → s.cell? w = some reg.cell → t.stop ≤ r.start :=
    fun inside cell => Int.le_trans (keeps.stop_le free inside cell) starts
  refine ⟨keeps.classed, fun a member => ?_, ?_, fun {w t} inside => ?_, fun {w loc} known => ?_,
    fun {w k} known => ?_, fun {w t reg'} inside known => ?_, fun {w u t t'} first second ne same => ?_⟩
  · rcases mem_assign.1 member with rfl | member
    · exact ⟨by rw [lookup_assign, if_pos rfl], used⟩
    · exact ⟨by rw [lookup_assign, if_neg (other' a member), (keeps.active a member).1],
        (keeps.active a member).2⟩
  · refine ((insertSorted_perm _ _).pairwise_iff fun ne => ne.symm).2 ?_
    exact List.pairwise_cons.2 ⟨fun a member => (free a member).symm, keeps.distinct⟩
  · rw [cell?_assign]
    rcases List.mem_cons.1 inside with same | inside
    · cases same
      exact ⟨reg.cell, if_pos rfl⟩
    · rw [if_neg (other inside)]
      exact keeps.placed inside
  · rw [lookup_assign] at known
    split at known
    · rename_i same
      exact ⟨r, by simp [same]⟩
    · obtain ⟨t, inside⟩ := keeps.known known
      exact ⟨t, List.mem_cons_of_mem _ inside⟩
  · rw [lookup_assign] at known
    split at known
    · cases known
    · exact keeps.spills known
  · rcases List.mem_cons.1 inside with same | inside
    · cases same
      exact .inr ⟨_, mem_assign.2 (.inl rfl), rfl, rfl⟩
    · rw [lookup_assign, if_neg (other inside)] at known
      refine (keeps.ended inside known).imp id fun ⟨a, member, facts⟩ => ?_
      exact ⟨a, mem_assign.2 (.inr member), facts⟩
  · rw [cell?_assign, cell?_assign] at same
    rcases List.mem_cons.1 first with isNew | first <;> rcases List.mem_cons.1 second with isNew' | second
    · cases isNew
      cases isNew'
      exact absurd rfl ne
    · cases isNew
      rw [if_pos rfl, if_neg (other second)] at same
      exact .inr (ended second same.symm)
    · cases isNew'
      rw [if_neg (other first), if_pos rfl] at same
      exact .inl (ended first same)
    · rw [if_neg (other first), if_neg (other second)] at same
      exact keeps.apart first second ne same

/-- A value gets a spill slot, and what was active of it is active no longer. -/
theorem spill (keeps : s.Keeps done i) {as : List Active} {done' : List (Value × RangeSet)}
    (within : as.Sublist s.active) (gone : ∀ a ∈ s.active, a ∈ as ↔ a.value ≠ v)
    (old : ∀ p ∈ done', p ∈ done ∨ p.1 = v) (more : done ⊆ done') (here : ∃ r, (v, r) ∈ done') :
    Keeps { s.spill v with active := as } done' i := by
  have cell : ∀ w, Scan.cell? { s.spill v with active := as } w =
      if w = v then some (.spill s.spilled) else s.cell? w := cell?_spill
  have fresh : ∀ w, s.cell? w ≠ some (.spill s.spilled) := fun w same =>
    Nat.lt_irrefl _ (keeps.spills (lookup_of_cell?_spill same))
  refine ⟨keeps.classed, fun a member => ?_, keeps.distinct.sublist within, fun {w t} inside => ?_,
    fun {w loc} known => ?_, fun {w k} known => ?_, fun {w t reg} inside known => ?_,
    fun {w u t t'} first second ne same => ?_⟩
  · have before := within.subset member
    refine ⟨?_, (keeps.active a before).2⟩
    change (s.spill v).places.lookup _ = _
    rw [lookup_spill, if_neg ((gone a before).1 member), (keeps.active a before).1]
  · rw [cell]
    split
    · exact ⟨_, rfl⟩
    · rename_i ne
      exact keeps.placed ((old _ inside).resolve_right ne)
  · change (s.spill v).places.lookup _ = _ at known
    rw [lookup_spill] at known
    split at known
    · rename_i same
      exact same ▸ here
    · obtain ⟨t, inside⟩ := keeps.known known
      exact ⟨t, more inside⟩
  · change (s.spill v).places.lookup _ = _ at known
    change k < s.spilled + 1
    rw [lookup_spill] at known
    split at known
    · cases known
      exact Nat.lt_succ_self _
    · exact Nat.lt_succ_of_lt (keeps.spills known)
  · change (s.spill v).places.lookup _ = _ at known
    rw [lookup_spill] at known
    split at known
    · cases known
    · rename_i ne
      refine (keeps.ended ((old _ inside).resolve_right ne) known).imp id ?_
      rintro ⟨a, member, rfl, stop⟩
      exact ⟨a, (gone a member).2 ne, rfl, stop⟩
  · rw [cell, cell] at same
    split at same <;> split at same
    · rename_i isV isV'
      exact absurd (isV.trans isV'.symm) ne
    · exact absurd same.symm (fresh u)
    · exact absurd same (fresh w)
    · rename_i notV notV'
      exact keeps.apart ((old _ first).resolve_right notV) ((old _ second).resolve_right notV') ne same

/-- A value gets the next free register. -/
theorem handOut (keeps : s.Keeps done i) (new : ∀ t, (v, t) ∉ done) (starts : i ≤ r.start)
    {c : RegClass} {reg : Register} (handed : (s.file.next c).1 = some reg) :
    Keeps ({ s with file := (s.file.next c).2 }.assign ⟨v, r.stop, reg⟩) ((v, r) :: done) i := by
  obtain ⟨unused, classed, used, others⟩ := keeps.classed.next handed
  have next : Keeps { s with file := (s.file.next c).2 } done i :=
    ⟨classed, fun a member => (keeps.active a member).imp id (others _), keeps.distinct, keeps.placed,
      keeps.known, keeps.spills, keeps.ended, keeps.apart⟩
  refine next.assign new starts used fun a member same => unused ?_
  exact RegisterFile.uses_of_cell same (keeps.active a member).2

/-- A value gets the register of one that goes to a spill slot. -/
theorem takeOver (keeps : s.Keeps done i) (new : ∀ t, (v, t) ∉ done) (starts : i ≤ r.start)
    {a : Active} (member : a ∈ s.active) :
    Keeps ({ s.spill a.value with active := s.active.erase a }.assign ⟨v, r.stop, a.reg⟩)
      ((v, r) :: done) i := by
  have once : s.active.Nodup := keeps.distinct.imp fun ne same =>
    ne (congrArg (fun a : Active => a.reg.cell) same)
  have spilled : Keeps { s.spill a.value with active := s.active.erase a } done i := by
    refine keeps.spill List.erase_sublist (fun b member' => ?_) (fun p => .inl) (List.Subset.refl _)
      (keeps.known (keeps.active a member).1)
    rw [once.mem_erase_iff]
    constructor
    · exact fun ⟨other, _⟩ same => other (keeps.eq_of_value member' member same)
    · exact fun other => ⟨fun same => other (congrArg _ same), member'⟩
  refine spilled.assign new starts (keeps.active a member).2 fun b member' same => ?_
  obtain ⟨other, member'⟩ := once.mem_erase_iff.1 member'
  exact other (keeps.eq_of_cell member' member same)

/-- A value gets a spill slot itself. -/
theorem setAside (keeps : s.Keeps done i) (new : ∀ t, (v, t) ∉ done) :
    (s.spill v).Keeps ((v, r) :: done) i := by
  refine keeps.spill (List.Sublist.refl _) (fun a member => iff_of_true member ?_) (fun p member => ?_)
    (List.subset_cons_self _ _) ⟨r, by simp⟩
  · rintro rfl
    obtain ⟨t, inside⟩ := keeps.known (keeps.active a member).1
    exact new t inside
  · rcases List.mem_cons.1 member with rfl | member
    · exact .inr rfl
    · exact .inl member

end Keeps

/-- What a step can do, once the registers of values that ended were taken back. -/
theorem step_cases (s : Scan) (c : RegClass) (v : Value) (r : RangeSet) :
    (∃ reg, ((s.expire r.start).file.next c).1 = some reg ∧ s.step c v r =
      { s.expire r.start with file := ((s.expire r.start).file.next c).2 }.assign ⟨v, r.stop, reg⟩) ∨
    ((s.expire r.start).file.next c).1 = none ∧
      (s.step c v r = (s.expire r.start).spill v ∨
      ∃ a ∈ (s.expire r.start).active, a.reg.cls = c ∧ s.step c v r =
        { (s.expire r.start).spill a.value with active := (s.expire r.start).active.erase a }.assign
          ⟨v, r.stop, a.reg⟩) := by
  unfold step
  generalize s.expire r.start = s
  dsimp only
  cases handed : s.file.next c with
  | mk reg? file =>
    cases reg? with
    | some reg => exact .inl ⟨reg, rfl, rfl⟩
    | none =>
      refine .inr ⟨rfl, ?_⟩
      cases found : s.victim? c with
      | none => exact .inl rfl
      | some a =>
        dsimp only
        split
        · exact .inl rfl
        · have member := List.mem_reverse.1 (List.mem_of_find?_eq_some found)
          have cls := List.find?_some (p := fun a : Active => a.reg.cls == c) found
          exact .inr ⟨a, member, eq_of_beq cls, rfl⟩

/-- One value is placed, and all that holds of the scan goes on. -/
theorem Keeps.step (keeps : s.Keeps done i) (new : ∀ t, (v, t) ∉ done) (starts : i ≤ r.start)
    (c : RegClass) :
    (s.step c v r).Keeps ((v, r) :: done) r.start := by
  have keeps := keeps.expire starts
  have here := Int.le_refl r.start
  rcases s.step_cases c v r with ⟨reg, handed, same⟩ | ⟨-, same | ⟨a, member, -, same⟩⟩ <;> rw [same]
  · exact keeps.handOut new here handed
  · exact keeps.setAside new
  · exact keeps.takeOver new here member

/-- The whole scan, through sets by their starts, and what else each step keeps of the scan, the
values so far and the number it is at. -/
theorem Keeps.steps (cls : Value → RegClass) {P : Scan → List (Value × RangeSet) → Int → Prop}
    {whole rest : List (Value × RangeSet)} (within : rest ⊆ whole)
    (also : ∀ {s done i v r}, s.Keeps done i → (∀ t, (v, t) ∉ done) → i ≤ r.start → (v, r) ∈ whole →
      P s done i → P (s.step (cls v) v r) ((v, r) :: done) r.start)
    (keeps : s.Keeps done i) (holds : P s done i) (starts : ∀ p ∈ rest, i ≤ p.2.start)
    (order : rest.Pairwise fun p q => p.2.start ≤ q.2.start)
    (keyed : Assoc.Keyed (rest.reverse ++ done)) :
    ∃ j, (rest.foldl (fun s (v, r) => s.step (cls v) v r) s).Keeps (rest.reverse ++ done) j ∧
      P (rest.foldl (fun s (v, r) => s.step (cls v) v r) s) (rest.reverse ++ done) j := by
  induction rest generalizing s done i with
  | nil => exact ⟨i, keeps, holds⟩
  | cons p rest ih =>
    obtain ⟨v, r⟩ := p
    obtain ⟨later, order⟩ := List.pairwise_cons.1 order
    have all : ((v, r) :: rest).reverse ++ done = rest.reverse ++ (v, r) :: done := by simp
    rw [all] at keyed ⊢
    have new : ∀ t, (v, t) ∉ done := by
      intro t inside
      rw [Assoc.Keyed, List.map_append] at keyed
      exact (List.nodup_cons.1 (List.nodup_append.1 keyed).2.1).1 (List.mem_map.2 ⟨(v, t), inside, rfl⟩)
    have first : i ≤ r.start := starts (v, r) (by simp)
    have member : (v, r) ∈ whole := within (by simp)
    exact ih (fun p later => within (List.mem_cons_of_mem _ later)) (keeps.step new first (cls v))
      (also keeps new first member holds) later order keyed

end Scan

/-! ## The places of values -/

namespace Func

variable {f : Func} {file : RegisterFile} {iv : Intervals} {S : Value → Int → Prop} {v w : Value} {i : Int}

/-- The scan, and what else each step of it keeps. -/
theorem scan_run (f : Func) (classed : file.Classed) (sound : iv.Sound S)
    {P : Scan → List (Value × RangeSet) → Int → Prop}
    (also : ∀ {s : Scan} {done i v r}, s.Keeps done i → (∀ t, (v, t) ∉ done) → i ≤ r.start →
      (v, r) ∈ iv.entries → P s done i → P (s.step (f.classOf v) v r) ((v, r) :: done) r.start)
    (holds : ∀ i, P (Scan.start file) [] i) :
    ∃ j, (f.scan file iv).Keeps iv.entries.reverse j ∧ P (f.scan file iv) iv.entries.reverse j := by
  have perm : iv.entries.Perm iv.sets := sorted_perm _
  have order : iv.entries.Pairwise fun p q => p.2.start ≤ q.2.start := by
    refine pairwise_sorted (R := fun p q => p.2.start ≤ q.2.start) (fun p q first => ?_)
      (fun p q later => ?_) (fun _ _ _ => Int.le_trans) iv.sets
    · simp only [Intervals.earlier, Bool.or_eq_true, Bool.and_eq_true, decide_eq_true_eq,
        beq_iff_eq] at first
      omega
    · simp only [Intervals.earlier, Bool.or_eq_false_iff, decide_eq_false_iff_not] at later
      omega
  have lowest : ∃ i, ∀ p ∈ iv.entries, i ≤ p.2.start := by
    cases whole : iv.entries with
    | nil => exact ⟨0, by simp⟩
    | cons p rest =>
      rw [whole] at order
      exact ⟨p.2.start, List.forall_mem_cons.2 ⟨Int.le_refl _, (List.pairwise_cons.1 order).1⟩⟩
  obtain ⟨i, starts⟩ := lowest
  have all : (iv.entries.reverse ++ []).Perm iv.sets := by simpa using perm
  have keyed : Assoc.Keyed (iv.entries.reverse ++ []) := (all.map Prod.fst).nodup_iff.2 sound.keyed
  have ran := (Scan.Keeps.start classed i).steps f.classOf (List.Subset.refl _) also (holds i) starts
    order keyed
  rwa [List.append_nil] at ran

theorem scan_keeps (f : Func) (classed : file.Classed) (sound : iv.Sound S) :
    ∃ j, (f.scan file iv).Keeps iv.entries.reverse j := by
  obtain ⟨j, keeps, -⟩ := f.scan_run classed sound (P := fun _ _ _ => True) (fun _ _ _ _ => id)
    fun _ => trivial
  exact ⟨j, keeps⟩

/-- The sets of classes are in order. -/
theorem entries_ordered (sound : iv.Sound S) {r : RangeSet} (inside : (v, r) ∈ iv.entries.reverse) :
    r.Ordered :=
  sound.ordered (sound.keyed.lookup_iff.2 ((sorted_perm _).mem_iff.1 (List.mem_reverse.1 inside)))

/-- A value that is live is among those that get places. -/
theorem mem_entries (sound : iv.Sound S) (live : S v i) :
    ∃ r, (iv.representative v, r) ∈ iv.entries.reverse ∧ i ∈ r := by
  obtain ⟨r, known, here⟩ := Intervals.lookup_of_mem_setOf ((sound.holds _ i).2 ⟨v, rfl, live⟩)
  exact ⟨r, List.mem_reverse.2 ((sorted_perm _).mem_iff.2 (mem_of_lookup known)), here⟩

/-- The place of a value: that of its class. -/
def cell? (iv : Intervals) (s : Scan) (v : Value) : Option Cell := s.cell? (iv.representative v)

theorem scan_placed (f : Func) (classed : file.Classed) (sound : iv.Sound S) (live : S v i) :
    ∃ k, cell? iv (f.scan file iv) v = some k := by
  obtain ⟨j, keeps⟩ := f.scan_keeps classed sound
  obtain ⟨r, inside, -⟩ := mem_entries sound live
  exact keeps.placed inside

/-- Values that are live at a number have different places. -/
theorem scan_apart (f : Func) (classed : file.Classed) (sound : iv.Sound S) (first : S v i)
    (second : S w i) (same : cell? iv (f.scan file iv) v = cell? iv (f.scan file iv) w) : v = w := by
  obtain ⟨j, keeps⟩ := f.scan_keeps classed sound
  obtain ⟨r, inside, here⟩ := mem_entries sound first
  obtain ⟨t, inside', there⟩ := mem_entries sound second
  by_cases joined : iv.representative v = iv.representative w
  · exact sound.apart joined first second
  · have first := (entries_ordered sound inside).start_le here
    have last := (entries_ordered sound inside).lt_stop here
    have first' := (entries_ordered sound inside').start_le there
    have last' := (entries_ordered sound inside').lt_stop there
    have ended := keeps.apart inside inside' joined same
    omega

end Func

end ImpCompiler
