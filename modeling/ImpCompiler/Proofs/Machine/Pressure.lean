import ImpCompiler.Proofs.Machine.Places

/-!
# Proofs.Machine.Pressure — values go to spill slots for want of registers only

While a scan is under way every register in use is that of an active value, whose set began
before and has not ended (`Scan.Tight`). So when no register is left for a value, as many sets
as there are registers of its class hold the number at which it starts, and its own set does,
too. If nothing is spilled, sets that hold a number in common are in registers of their own, so
there are no more of them than registers (`Func.scan_spilled_iff`).
-/

namespace ImpCompiler

set_option autoImplicit false

/-! ## Hulls -/

namespace RangeSet

variable {r : RangeSet}

/-- The number is between the start and the stop of the set. -/
def InHull (r : RangeSet) (i : Int) : Prop := r.start ≤ i ∧ i < r.stop

instance (r : RangeSet) (i : Int) : Decidable (r.InHull i) := inferInstanceAs (Decidable (_ ∧ _))

/-- The set is within the numbers from 0 on, or has none. -/
def Sized (r : RangeSet) : Prop := 0 ≤ r.start ∧ r.start < r.stop ∨ r.start = -1 ∧ r.stop = -1

/-- A set has its start and the number before its stop, unless it is empty. -/
theorem Ordered.hull_cases (ordered : r.Ordered) :
    r.start ∈ r ∧ r.stop - 1 ∈ r ∨ r.start = -1 ∧ r.stop = -1 := by
  obtain ⟨ranges⟩ := r
  cases ranges with
  | nil => exact .inr ⟨rfl, rfl⟩
  | cons first rest =>
    refine .inl ⟨⟨first, by simp, Int.le_refl _, ordered.1 first (by simp)⟩, ?_⟩
    have last : (first :: rest).getLast? = some ((first :: rest).getLast (by simp)) :=
      List.getLast?_eq_some_getLast _
    have some := ordered.1 _ (List.getLast_mem (l := first :: rest) (by simp))
    refine ⟨_, List.getLast_mem (l := first :: rest) (by simp), ?_⟩
    simp only [stop, last, Range.mem_iff]
    omega

end RangeSet

/-! ## The registers of a file -/

namespace RegisterFile

variable {file : RegisterFile} {c : RegClass} {reg : Register}

/-- All registers are free, and there are temporaries of each class, none listed twice. -/
structure Ready (file : RegisterFile) : Prop where
  classed : file.Classed
  free : ∀ reg, ¬ file.Uses reg
  once : ∀ c, (file.bank c).temps.Nodup
  some : ∀ c, 0 < (file.bank c).temps.length

/-- If no register is left then all temporaries are in use. -/
theorem Classed.uses_of_none (classed : file.Classed) (none : (file.next c).1 = none)
    (offered : file.Offers c reg) : file.Uses reg := by
  obtain ⟨n, member, rfl⟩ := offered
  unfold RegisterFile.next Bank.next at none
  split at none
  · cases none
  · rename_i missing
    have used : n ∈ (file.bank c).used := by simpa using List.find?_eq_none.1 missing n member
    rwa [Uses, show ((file.bank c).register n).cls = c from classed c]

end RegisterFile

theorem Arch.registers_ready (arch : Arch) : arch.registers.Ready where
  classed := arch.registers_classed
  free reg := by
    have none : (arch.registers.bank reg.cls).used = [] := by
      cases arch <;> cases reg.cls <;> rfl
    simp [RegisterFile.Uses, none]
  once c := by cases arch <;> cases c <;> decide
  some c := by cases arch <;> cases c <;> decide

/-! ## The scan -/

namespace Scan

variable {file : RegisterFile} {cls : Value → RegClass} {s : Scan} {done : List (Value × RangeSet)}
  {c : RegClass} {i j : Int} {v : Value} {r : RangeSet}

/-- The sets of values of a register class whose hulls hold a number. -/
def crowd (cls : Value → RegClass) (c : RegClass) (i : Int) (ps : List (Value × RangeSet)) :
    List (Value × RangeSet) :=
  ps.filter fun p => decide (cls p.1 = c ∧ p.2.InHull i)

theorem mem_crowd {p : Value × RangeSet} :
    p ∈ crowd cls c i done ↔ p ∈ done ∧ cls p.1 = c ∧ p.2.InHull i := by
  simp [crowd]

theorem crowd_le (p : Value × RangeSet) :
    (crowd cls c i done).length ≤ (crowd cls c i (p :: done)).length :=
  ((List.sublist_cons_self p done).filter _).length_le

theorem crowd_reverse : (crowd cls c i done.reverse).length = (crowd cls c i done).length := by
  simp [crowd, List.filter_reverse]

theorem crowd_cons (here : r.InHull i) :
    (crowd cls (cls v) i ((v, r) :: done)).length = (crowd cls (cls v) i done).length + 1 := by
  simp [crowd, here]

/-- A scan that has a register in use for each active value only, and that has put a value into a
spill slot only where there were more sets than registers. -/
structure Tight (file : RegisterFile) (cls : Value → RegClass) (s : Scan)
    (done : List (Value × RangeSet)) (i : Int) : Prop where
  supplied : Supplied file cls s
  offers : ∀ {c reg}, file.Offers c reg → s.file.Offers c reg
  held : ∀ {reg}, s.file.Uses reg → ∃ a ∈ s.active, a.reg.cell = reg.cell
  stops : ∀ a ∈ s.active, ∃ r, (a.value, r) ∈ done ∧ r.stop = a.stop
  started : ∀ p ∈ done, p.2.start ≤ i
  sized : ∀ p ∈ done, p.2.Sized
  crowded : 0 < s.spilled → ∃ c i, (file.bank c).temps.length < (crowd cls c i done).length

namespace Tight

theorem start (ready : file.Ready) (cls : Value → RegClass) (i : Int) :
    Tight file cls (Scan.start file) [] i where
  supplied := .start file cls
  offers := id
  held used := absurd used (ready.free _)
  stops a member := by cases member
  started p member := by cases member
  sized p member := by cases member
  crowded spilled := by cases spilled

/-- Registers whose ranges have ended are free again. -/
theorem expire (tight : Tight file cls s done i) (classed : s.file.Classed) (later : i ≤ j) :
    Tight file cls (s.expire j) done j := by
  have used := (RegisterFile.frees (s.active.filter fun a => decide (a.stop ≤ j)) classed).2
  refine ⟨tight.supplied.expire j, fun offered => (RegisterFile.offers_frees _).2 (tight.offers offered),
    fun {reg} inUse => ?_, fun a member => tight.stops a (List.mem_filter.1 member).1,
    fun p member => Int.le_trans (tight.started p member) later, tight.sized, tight.crowded⟩
  obtain ⟨inUse, others⟩ := (used reg).1 inUse
  obtain ⟨a, member, cell⟩ := tight.held inUse
  refine ⟨a, List.mem_filter.2 ⟨member, ?_⟩, cell⟩
  rw [Bool.not_eq_true', Bool.eq_false_iff]
  exact fun ended => others a (List.mem_filter.2 ⟨member, ended⟩) cell

/-- If no register of a class is left, then as many sets of values of the class hold the number as
there are registers. -/
theorem full (tight : Tight file cls s done i) (keeps : s.Keeps done i) (ready : file.Ready)
    (none : (s.file.next c).1 = none) (goesOn : ∀ a ∈ s.active, i < a.stop) :
    (file.bank c).temps.length ≤ (crowd cls c i done).length := by
  -- each register is that of an active value
  have registers : (file.bank c).temps.map (fun n => some (Cell.register c n)) ⊆
      (crowd cls c i done).map fun p => s.cell? p.1 := by
    intro cell member
    obtain ⟨n, offered, rfl⟩ := List.mem_map.1 member
    have offered : file.Offers c ((file.bank c).register n) := ⟨n, offered, rfl⟩
    obtain ⟨a, active, cell⟩ := tight.held (keeps.classed.uses_of_none none (tight.offers offered))
    obtain ⟨number, number'⟩ := Cell.register.inj cell
    obtain ⟨r, inside, stop⟩ := tight.stops a active
    have place := (keeps.active a active).1
    have sameClass := (tight.supplied.registers place).cls ready.classed
    refine List.mem_map.2 ⟨(a.value, r), mem_crowd.2 ⟨inside, ?_, tight.started _ inside, ?_⟩, ?_⟩
    · rw [← sameClass, number, offered.cls ready.classed]
    · rw [stop]
      exact goesOn a active
    · rw [Scan.cell?, place]
      change some a.reg.cell = _
      rw [cell, Register.cell, offered.cls ready.classed]
      rfl
  have once : ((file.bank c).temps.map fun n => some (Cell.register c n)).Nodup :=
    (ready.once c).map fun m n same => (Cell.register.inj (Option.some.inj same)).2
  simpa using (once.subperm registers).length_le

/-- A value for which no register is left starts in a crowd. -/
theorem crowds (tight : Tight file cls s done r.start) (keeps : s.Keeps done r.start) (ready : file.Ready)
    (none : (s.file.next (cls v)).1 = none) (goesOn : ∀ a ∈ s.active, r.start < a.stop)
    (sized : r.Sized) :
    (file.bank (cls v)).temps.length < (crowd cls (cls v) r.start ((v, r) :: done)).length := by
  have full := tight.full keeps ready none goesOn
  have here : r.InHull r.start := by
    -- a set without numbers starts before all others, and all registers are free there
    have some := ready.some (cls v)
    obtain ⟨p, member⟩ := List.exists_mem_of_length_pos (Nat.lt_of_lt_of_le some full)
    obtain ⟨inside, -, low, high⟩ := mem_crowd.1 member
    refine ⟨Int.le_refl _, ?_⟩
    rcases sized with ⟨-, before⟩ | ⟨first, -⟩
    · exact before
    · rcases tight.sized p inside with ⟨first', -⟩ | ⟨-, last⟩ <;> omega
  rw [crowd_cons here]
  exact Nat.lt_succ_of_le full

/-- If something is spilled, more values were live at once than the class has registers. -/
theorem step (tight : Tight file cls s done i) (keeps : s.Keeps done i) (ready : file.Ready)
    (new : ∀ t, (v, t) ∉ done) (starts : i ≤ r.start) (sized : r.Sized) :
    Tight file cls (s.step (cls v) v r) ((v, r) :: done) r.start := by
  have supplied := tight.supplied.step (r := r) ready.classed keeps new starts
  have tight := tight.expire keeps.classed starts
  have keeps := keeps.expire starts
  have goesOn : ∀ a ∈ (s.expire r.start).active, r.start < a.stop := fun a member => by
    simpa using (List.mem_filter.1 member).2
  have stops : ∀ a ∈ (s.expire r.start).active, ∃ t, (a.value, t) ∈ (v, r) :: done ∧ t.stop = a.stop :=
    fun a member => (tight.stops a member).imp fun t facts => ⟨List.mem_cons_of_mem _ facts.1, facts.2⟩
  have started : ∀ p ∈ (v, r) :: done, p.2.start ≤ r.start :=
    List.forall_mem_cons.2 ⟨Int.le_refl _, tight.started⟩
  have sized' : ∀ p ∈ (v, r) :: done, p.2.Sized := List.forall_mem_cons.2 ⟨sized, tight.sized⟩
  rcases s.step_cases (cls v) v r with ⟨reg, handed, same⟩ | ⟨none, same | ⟨a, member, -, same⟩⟩ <;>
    rw [same] at supplied ⊢
  · refine ⟨supplied, fun offered => RegisterFile.offers_next.2 (tight.offers offered), fun used => ?_,
      fun b member => ?_, started, sized', fun spilled => ?_⟩
    · rcases keeps.classed.uses_of_next handed used with old | cell
      · obtain ⟨a, member, cell⟩ := tight.held old
        exact ⟨a, mem_assign.2 (.inr member), cell⟩
      · exact ⟨_, mem_assign.2 (.inl rfl), cell⟩
    · rcases mem_assign.1 member with rfl | member
      · exact ⟨r, by simp, rfl⟩
      · exact stops b member
    · obtain ⟨c, i, more⟩ := tight.crowded spilled
      exact ⟨c, i, Nat.lt_of_lt_of_le more (crowd_le _)⟩
  · exact ⟨supplied, tight.offers, tight.held, stops, started, sized',
      fun _ => ⟨_, _, tight.crowds keeps ready none goesOn sized⟩⟩
  · refine ⟨supplied, tight.offers, fun {reg} used => ?_, fun b member' => ?_, started, sized',
      fun _ => ⟨_, _, tight.crowds keeps ready none goesOn sized⟩⟩
    · obtain ⟨b, member', cell⟩ := tight.held used
      by_cases isA : b = a
      · exact ⟨_, mem_assign.2 (.inl rfl), isA ▸ cell⟩
      · exact ⟨b, mem_assign.2 (.inr ((List.mem_erase_of_ne isA).2 member')), cell⟩
    · rcases mem_assign.1 member' with rfl | member'
      · exact ⟨r, by simp, rfl⟩
      · exact stops b (List.mem_of_mem_erase member')

end Tight

/-- If nothing was spilled, then sets that hold a number are in registers of their own. -/
theorem Keeps.crowd_le_temps (keeps : s.Keeps done j) (supplied : Supplied file cls s)
    (classed : file.Classed) (none : s.spilled = 0) (keyed : Assoc.Keyed done) (c : RegClass) (i : Int) :
    (crowd cls c i done).length ≤ (file.bank c).temps.length := by
  have registers : (crowd cls c i done).map (fun p => s.cell? p.1) ⊆
      (file.bank c).temps.map fun n => some (Cell.register c n) := by
    intro cell used
    obtain ⟨p, member, rfl⟩ := List.mem_map.1 used
    obtain ⟨inside, sameClass, -⟩ := mem_crowd.1 member
    obtain ⟨k, placed⟩ := keeps.placed inside
    obtain ⟨loc, look, -⟩ := Option.bind_eq_some_iff.1 placed
    cases loc with
    | unassigned =>
      rw [Scan.cell?, look] at placed
      cases placed
    | spill k => exact absurd (keeps.spills look) (by omega)
    | register reg =>
      obtain ⟨n, offered, rfl⟩ := supplied.registers look
      refine List.mem_map.2 ⟨n, sameClass ▸ offered, ?_⟩
      rw [Scan.cell?, look]
      change _ = some (Register.cell _)
      rw [Register.cell, show ((file.bank (cls p.1)).register n).cls = _ from classed _, sameClass]
      rfl
  have once : ((crowd cls c i done).map fun p => s.cell? p.1).Nodup := by
    refine List.Nodup.map_on (fun p member q member' same => ?_) ((List.Nodup.of_map _ keyed).filter _)
    obtain ⟨inside, -, low, high⟩ := mem_crowd.1 member
    obtain ⟨inside', -, low', high'⟩ := mem_crowd.1 member'
    by_contra other
    have values : p.1 ≠ q.1 := fun equal => other (List.inj_on_of_nodup_map keyed inside inside' equal)
    have ended := keeps.apart inside inside' values same
    omega
  simpa using (once.subperm registers).length_le

end Scan

/-! ## Functions -/

namespace Func

variable {f : Func} {file : RegisterFile} {iv iv₀ : Intervals} {S : Value → Int → Prop} {v : Value}
  {b n : Nat} {i : Instr}

/-- A value goes to a spill slot just if more sets of a class hold a number than it has registers. -/
theorem scan_spilled_iff (f : Func) (ready : file.Ready) (sound : iv.Sound S)
    (sized : ∀ p ∈ iv.entries, p.2.Sized) :
    0 < (f.scan file iv).spilled ↔
      ∃ c i, (file.bank c).temps.length < (Scan.crowd f.classOf c i iv.entries).length := by
  obtain ⟨j, keeps, tight⟩ := f.scan_run ready.classed sound (P := Scan.Tight file f.classOf)
    (fun keeps new starts member tight => tight.step keeps ready new starts (sized _ member))
    (Scan.Tight.start ready f.classOf)
  constructor
  · intro spilled
    obtain ⟨c, i, more⟩ := tight.crowded spilled
    exact ⟨c, i, Scan.crowd_reverse ▸ more⟩
  · rintro ⟨c, i, more⟩
    by_contra none
    have all : iv.entries.reverse.Perm iv.sets := (List.reverse_perm _).trans (sorted_perm _)
    have fits := keeps.crowd_le_temps tight.supplied ready.classed (Nat.eq_zero_of_not_pos none)
      ((all.map Prod.fst).nodup_iff.2 sound.keyed) c i
    rw [Scan.crowd_reverse] at fits
    exact absurd more (Nat.not_lt.2 fits)

/-- More sets of a class of registers hold the number of an instruction than there are
registers. -/
def Pressed (f : Func) (file : RegisterFile) (iv : Intervals) : Prop :=
  ∃ k < f.instrs.length, ∃ c,
    (file.bank c).temps.length < (Scan.crowd f.classOf c k iv.entries).length

/-! ## The numbers of live ranges -/

theorem Orderly.indexOf_bounds (orderly : f.Orderly) (member : n ∈ f.instrs) :
    0 ≤ f.number.indexOf n ∧ f.number.indexOf n < f.instrs.length :=
  orderly.bijective.mapsTo member

namespace Housed

variable (housed : f.Housed)

include housed

/-- No range starts before the first instruction. -/
theorem liveFrom_nonneg (listed : b ∈ f.layout) {start : Int} (first : 0 ≤ start) (v : Value) :
    0 ≤ f.number.liveFrom b start v := by
  cases v with
  | negSucc k => exact first
  | ofNat m =>
    cases known : f.number.arena[m]? with
    | none =>
      rw [liveFrom, show f.number.instr? (.ofNat m) = none from known]
      exact first
    | some i =>
      by_cases owner : i.block = some b
      · obtain ⟨j, known', like⟩ := f.annotates_number.symm.instr known
        have here := (housed.named known' (like.block.trans owner)).2 listed
        rw [show (Int.ofNat m) = ((m : Nat) : Value) from rfl, liveFrom_own known owner]
        exact (housed.orderly.indexOf_bounds (List.mem_flatMap.2 ⟨b, listed, here⟩)).1
      · rw [show (Int.ofNat m) = ((m : Nat) : Value) from rfl, liveFrom_other known owner]
        exact first

/-- Values are live at numbers of instructions only. -/
theorem liveAt_bounds {k : Int} (live : f.number.LiveAt v k) : 0 ≤ k ∧ k < f.instrs.length := by
  obtain ⟨r, range, low, high⟩ := live
  obtain ⟨b, listed, range⟩ := List.mem_flatMap.1 range
  have bounds : ∀ m ∈ (f.number.block b).instrs,
      0 ≤ f.number.indexOf m ∧ f.number.indexOf m < f.instrs.length := fun m member =>
    housed.orderly.indexOf_bounds (List.mem_flatMap.2 ⟨b, listed, member⟩)
  cases whole : (f.number.block b).instrs with
  | nil => simp [blockRanges, whole] at range
  | cons first rest =>
    have head : (f.number.block b).instrs.head? = some first := by rw [whole]; rfl
    obtain ⟨last, tail⟩ : ∃ last, (f.number.block b).instrs.getLast? = some last :=
      ⟨_, by rw [whole]; exact List.getLast?_eq_some_getLast (by simp)⟩
    have start := housed.liveFrom_nonneg listed (bounds first (List.mem_of_mem_head? head)).1 v
    rcases mem_blockRanges head tail range with ⟨-, rfl⟩ | ⟨m, here, i, -, -, rfl⟩ | ⟨m, here, -, rfl⟩
    · have := bounds last (List.mem_of_getLast? tail)
      simp only at low high
      omega
    · have := bounds m here
      simp only [useEnd] at low high
      split at high <;> omega
    · have := bounds m here
      simp only at low high
      omega

/-- The sets of classes have numbers of instructions only. -/
theorem sized (sound : iv.Sound f.number.LiveAt) {p : Value × RangeSet} (member : p ∈ iv.entries) :
    p.2.Sized ∧ p.2.stop ≤ f.instrs.length := by
  have look : iv.sets.lookup p.1 = some p.2 :=
    sound.keyed.lookup_iff.2 ((sorted_perm _).mem_iff.1 member)
  have bounds : ∀ k ∈ p.2, 0 ≤ k ∧ k < f.instrs.length := by
    intro k inside
    obtain ⟨v, -, live⟩ := (sound.holds p.1 k).1 (by rwa [Intervals.setOf, look])
    exact housed.liveAt_bounds live
  have ordered := sound.ordered look
  rcases ordered.hull_cases with ⟨first, last⟩ | ⟨start, stop⟩
  · have low := bounds _ first
    have high := bounds _ last
    have order := ordered.start_le last
    exact ⟨.inl ⟨low.1, by omega⟩, by omega⟩
  · exact ⟨.inr ⟨start, stop⟩, by omega⟩

/-- A crowd that is too large for the registers is one at an instruction. -/
theorem pressed_iff (sound : iv.Sound f.number.LiveAt) : f.number.Pressed file iv ↔
    ∃ c i, (file.bank c).temps.length < (Scan.crowd f.number.classOf c i iv.entries).length := by
  constructor
  · rintro ⟨k, -, c, more⟩
    exact ⟨c, k, more⟩
  · rintro ⟨c, i, more⟩
    obtain ⟨p, member⟩ := List.exists_mem_of_length_pos (Nat.zero_lt_of_lt more)
    obtain ⟨inside, -, low, high⟩ := Scan.mem_crowd.1 member
    obtain ⟨sized, below⟩ := housed.sized sound inside
    have range : 0 ≤ i ∧ i < f.instrs.length := by
      rcases sized with ⟨start, -⟩ | ⟨start, stop⟩ <;> omega
    obtain ⟨k, rfl⟩ := Int.eq_ofNat_of_zero_le range.1
    exact ⟨k, Int.ofNat_lt.1 range.2, c, more⟩

end Housed

/-! ## Every value has a place -/

/-- A value has a range in the block of its instruction. -/
theorem rangesBackward_value {start : Int} {live : List Value} {ns : List Nat} (member : n ∈ ns)
    (known : f.arena[n]? = some i) (value : i.hasValue = true) :
    (n : Value) ∈ live ∨ ∃ r, ((n : Value), r) ∈ f.rangesBackward b start live ns := by
  induction ns generalizing live with
  | nil => cases member
  | cons m ns ih =>
    by_cases needed : (n : Value) ∈ live
    · exact .inl needed
    · refine .inr ?_
      cases known' : f.arena[m]? with
      | none =>
        rw [rangesBackward_none known']
        refine (ih ((List.mem_cons.1 member).resolve_left ?_)).resolve_left needed
        rintro rfl
        rw [known] at known'
        cases known'
      | some j =>
        by_cases last : (n : Value) ∈ lastUses live j
        · exact ⟨_, (mem_rangesBackward_some known').2 (.inl ⟨last, rfl⟩)⟩
        · have unused : (n : Value) ∉ lastUses live j ++ live := by simp [last, needed]
          rcases List.mem_cons.1 member with rfl | member
          · cases known.symm.trans known'
            exact ⟨_, (mem_rangesBackward_some known).2 (.inr (.inl ⟨⟨rfl, value, unused⟩, rfl⟩))⟩
          · obtain ⟨r, range⟩ := (ih member).resolve_left unused
            exact ⟨r, (mem_rangesBackward_some known').2 (.inr (.inr range))⟩

/-- Every value has a set. -/
theorem liveRanges_set? (ran : f.liveRanges = .ok iv) (member : n ∈ f.instrs)
    (known : f.arena[n]? = some i) (value : i.hasValue = true) : ∃ s, iv.set? n = some s := by
  obtain ⟨b, listed, here⟩ := List.mem_flatMap.1 member
  obtain ⟨r, range⟩ : ∃ r, ((n : Value), r) ∈ f.blockRanges f.liveIn b := by
    obtain ⟨first, rest, whole⟩ := List.exists_cons_of_ne_nil (List.ne_nil_of_mem here)
    have head : (f.block b).instrs.head? = some first := by rw [whole]; rfl
    obtain ⟨last, tail⟩ : ∃ last, (f.block b).instrs.getLast? = some last :=
      ⟨_, List.getLast?_eq_some_getLast (List.ne_nil_of_mem here)⟩
    rcases rangesBackward_value (List.mem_reverse.2 here) known value with
      (out : (n : Value) ∈ f.liveOut f.liveIn b) | ⟨r, range⟩
    · exact ⟨_, blockRanges_out head tail out⟩
    · exact ⟨r, blockRanges_inner head tail range⟩
  have single := (liveRanges_sound ran).2
  rw [Intervals.set?, Intervals.Sound.representative_single single]
  exact (liveRanges_lookup ran).2 ⟨_, List.mem_flatMap.2 ⟨b, listed, range⟩⟩

/-- A function whose live ranges can be computed is allocated, if its copies have a source. -/
theorem allocate_ok (ran : f.number.liveRanges = .ok iv₀) (classed : file.Classed)
    (sources : ∀ n ∈ f.instrs, ∀ i, f.arena[n]? = some i → i.op = .copy → i.args ≠ []) :
    ∃ g stats, f.allocate file = (g, .ok stats) := by
  have sound := (liveRanges_sound ran).1
  obtain ⟨k, iv, joined⟩ := f.number.coalesce_ok iv₀ f.number.code fun p member copy => by
    obtain ⟨inside, known⟩ := mem_code.1 member
    obtain ⟨i, known', like⟩ := f.annotates_number.symm.instr known
    exact like.args ▸ sources p.1 inside i known' (like.op.trans copy)
  have sound' := coalesce_keeps (P := fun iv => iv.Sound f.number.LiveAt)
    (fun _ _ sound => sound.join _ _ _) joined sound
  obtain ⟨j, keeps⟩ := f.number.scan_keeps classed sound'
  obtain ⟨stats, done⟩ := allocateWith_ok file joined fun {n i} inside known value => by
    obtain ⟨-, s, look⟩ := coalesce_keeps
      (P := fun iv => iv.Sound f.number.LiveAt ∧ ∃ s, iv.set? n = some s)
      (fun _ _ before => ⟨before.1.join _ _ _,
        before.2.elim fun s known => before.1.join_set? _ _ _ known⟩)
      joined ⟨sound, liveRanges_set? ran inside known value⟩
    exact keeps.placed (List.mem_reverse.2 ((sorted_perm _).mem_iff.2 (mem_of_lookup look)))
  refine ⟨f.number.setPlaces iv (f.number.scan file iv), stats, ?_⟩
  simp only [allocate, intervals, ran, done]

/-- Something is spilled exactly if more values are live at once than a class has registers. -/
theorem Housed.spilled_iff (housed : f.Housed) (ready : file.Ready) (ran : f.number.liveRanges = .ok iv₀) :
    ∃ g stats iv, f.allocate file = (g, .ok stats) ∧
      f.number.coalesce iv₀ f.number.code = .ok (stats.coalesced, iv) ∧
      (0 < stats.spilled ↔ f.number.Pressed file iv) := by
  obtain ⟨g, stats, allocated⟩ := allocate_ok ran ready.classed housed.sources
  obtain ⟨iv₁, iv, ran', joined, -, spilled, -⟩ := allocate_cases allocated
  cases ran.symm.trans ran'
  have sound := coalesce_keeps (P := fun iv => iv.Sound f.number.LiveAt)
    (fun _ _ sound => sound.join _ _ _) joined (liveRanges_sound ran).1
  refine ⟨g, stats, iv, allocated, joined, ?_⟩
  rw [spilled, f.number.scan_spilled_iff ready sound fun p member => (housed.sized sound member).1,
    housed.pressed_iff sound]

/-- Values go to spill slots just where registers run out: a function whose live ranges can be
computed is allocated for both machines, and it has spill slots if and only if the number of an
instruction is in the hulls of more classes of values, of integers or of floats, than the machine
has registers for. That holds of functions that calls make. It goes on to hold when dead code is
removed, when instructions are numbered or placed, and when operands are changed. -/
theorem spills_need_pressure :
    (∀ f : Func, f.Housed → ∀ (arch : Arch) (iv₀ : Intervals), f.intervals = (f.number, .ok iv₀) →
      ∃ g stats iv, f.allocate arch.registers = (g, .ok stats) ∧
        f.number.coalesce iv₀ f.number.code = .ok (stats.coalesced, iv) ∧
        (0 < stats.spilled ↔ f.number.Pressed arch.registers iv)) ∧
      (∀ (m : Module) (calls : List Call), (∀ f ∈ m.functions, f.Housed) →
        ∀ f ∈ (m.after calls).functions, f.Housed) ∧
      (∀ f : Func, f.Housed → f.buildFlow.1.Housed) ∧
      (∀ f g : Func, f.Annotates g → f.Housed → g.Housed) ∧
      ∀ (f : Func) (n : Nat) (args : List Value), f.Housed →
        (args = [] → ∀ i, f.arena[n]? = some i → i.op ≠ .copy) → (f.setArgs n args).Housed :=
  ⟨fun _ housed arch _ ran => housed.spilled_iff arch.registers_ready (Prod.mk.inj ran).2,
    fun _ calls => Housed.after calls, fun _ housed => housed.buildFlow,
    fun _ _ same housed => housed.annotates same, fun _ _ _ housed => housed.setArgs⟩

theorem crowded_mem : ∃ calls, crowded ∈ ((Module.empty "m").after calls).functions := by
  unfold crowded
  cases functions : ((Module.empty "m").after _).functions with
  | nil => exact absurd functions (by decide +kernel)
  | cons f rest => exact ⟨_, functions ▸ List.mem_cons_self⟩

/-- `crowded` has more integers at once than there are registers for. -/
theorem crowded_is_pressed : crowded.Housed ∧ ∃ g stats iv₀ iv,
    crowded.intervals = (crowded.number, .ok iv₀) ∧
    crowded.allocate Arch.aarch64.registers = (g, .ok stats) ∧ stats.spilled = 3 ∧
    crowded.number.coalesce iv₀ crowded.number.code = .ok (stats.coalesced, iv) ∧
    crowded.number.Pressed Arch.aarch64.registers iv := by
  have facts : (crowded.allocate Arch.aarch64.registers).2.toOption.map AllocStats.spilled = some 3 := by
    decide +kernel
  obtain ⟨stats, ran, spilled⟩ := Option.map_eq_some_iff.1 facts
  have reported := Except.toOption_eq_some.1 ran
  obtain ⟨iv₀, -, ranges, -⟩ := allocate_cases (Prod.ext rfl reported)
  have intervals : crowded.intervals = (crowded.number, .ok iv₀) := by rw [Func.intervals, ranges]
  obtain ⟨all, made, -⟩ := spills_need_pressure
  obtain ⟨calls, member⟩ := crowded_mem
  have housed := made _ calls (fun _ none => by cases none) crowded member
  obtain ⟨g, stats', iv, allocated, joined, pressed⟩ := all crowded housed .aarch64 iv₀ intervals
  obtain rfl : stats = stats' := by
    rw [allocated] at reported
    exact (Except.ok.inj reported).symm
  exact ⟨housed, g, stats, iv₀, iv, intervals, allocated, spilled, joined, pressed.1 (by omega)⟩

end Func

end ImpCompiler
