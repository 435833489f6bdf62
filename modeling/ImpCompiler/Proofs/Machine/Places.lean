import ImpCompiler.Proofs.Code.Housed
import ImpCompiler.Proofs.Live.Exact
import ImpCompiler.Proofs.Machine.Allocation

/-!
# Proofs.Machine.Places — the registers and spill slots that values get

A register is a temporary of the class of its value, and a spill slot is given to one value
(`Scan.Supplied`): a value that loses its register to another one had none before. Joined
values are of one class of registers (`Func.coalesce_class`). Together with
`Scan.Keeps` this says of any function that is allocated where its values are
(`Func.Assigned`), whether they are computed before they are used or not. Where instructions that
name a block are in the layout, the representatives of classes are values of the function
(`Func.Listed.values`), so the place of a class can be read off the instruction of its
representative (`Func.locOf`).
-/

namespace ImpCompiler

set_option autoImplicit false

/-! ## The temporaries of a register file -/

namespace RegisterFile

variable {file : RegisterFile} {c d : RegClass} {reg : Register}

def Offers (file : RegisterFile) (c : RegClass) (reg : Register) : Prop :=
  ∃ n ∈ (file.bank c).temps, reg = (file.bank c).register n

theorem Offers.cls (offers : file.Offers c reg) (classed : file.Classed) : reg.cls = c := by
  obtain ⟨n, -, rfl⟩ := offers
  exact classed c

/-- Which registers are in use makes no difference to what a file has. -/
theorem offers_setBank {b : Bank} {used : List Nat} (same : b = { file.bank c with used }) :
    (file.setBank b c).Offers d reg ↔ file.Offers d reg := by
  rw [Offers, Offers, bank_setBank]
  split
  · rename_i here
    rw [same, here]
    rfl
  · rfl

theorem offers_free (n : Int) : (file.free c n).Offers d reg ↔ file.Offers d reg :=
  offers_setBank rfl

theorem offers_next : (file.next c).2.Offers d reg ↔ file.Offers d reg := by
  unfold RegisterFile.next Bank.next
  split
  · exact offers_setBank rfl
  · have same : file.bank c = { file.bank c with used := (file.bank c).used } := rfl
    exact offers_setBank same

/-- A register that is handed out is one of the file. -/
theorem next_offers (handed : (file.next c).1 = some reg) : file.Offers c reg := by
  unfold RegisterFile.next Bank.next at handed
  split at handed
  · rename_i n found
    cases handed
    exact ⟨n, List.mem_of_find?_eq_some found, rfl⟩
  · cases handed

theorem offers_frees (ended : List Active) :
    (ended.foldl (fun file a => file.free a.reg.cls a.reg.number) file).Offers d reg ↔
      file.Offers d reg := by
  induction ended generalizing file with
  | nil => rfl
  | cons a ended ih => exact ih.trans (offers_free _)

end RegisterFile

/-! ## The scan -/

namespace Scan

def locOf (s : Scan) (v : Value) : Loc := (s.places.lookup v).getD .unassigned

/-- Registers are temporaries of the file, each for values of its class, and every spill slot
so far is that of one value. -/
structure Supplied (file : RegisterFile) (cls : Value → RegClass) (s : Scan) : Prop where
  offers : ∀ {c reg}, s.file.Offers c reg → file.Offers c reg
  registers : ∀ {v reg}, s.places.lookup v = some (.register reg) → file.Offers (cls v) reg
  filled : ∀ k < s.spilled, ∃ v, s.places.lookup v = some (.spill k)
  single : ∀ {v w k}, s.places.lookup v = some (.spill k) → s.places.lookup w = some (.spill k) → v = w

namespace Supplied

variable {file : RegisterFile} {cls : Value → RegClass} {s : Scan} {done : List (Value × RangeSet)}
  {i : Int} {v : Value} {r : RangeSet}

theorem start (file : RegisterFile) (cls : Value → RegClass) : Supplied file cls (Scan.start file) where
  offers := id
  registers look := by cases look
  filled k below := by cases below
  single look := by cases look

theorem expire (supplied : Supplied file cls s) (j : Int) : Supplied file cls (s.expire j) where
  offers offered := supplied.offers ((RegisterFile.offers_frees _).1 offered)
  registers := supplied.registers
  filled := supplied.filled
  single := supplied.single

/-- A value without a spill slot gets a register. -/
theorem assign (supplied : Supplied file cls s) {a : Active} (offered : file.Offers (cls a.value) a.reg)
    (unspilled : ∀ k, s.places.lookup a.value ≠ some (.spill k)) :
    Supplied file cls (s.assign a) where
  offers := supplied.offers
  registers {v reg} look := by
    rw [lookup_assign] at look
    split at look
    · rename_i same
      cases look
      exact same ▸ offered
    · exact supplied.registers look
  filled k below := by
    obtain ⟨v, look⟩ := supplied.filled k below
    refine ⟨v, ?_⟩
    rw [lookup_assign, if_neg, look]
    rintro rfl
    exact unspilled k look
  single {v w k} first second := by
    rw [lookup_assign] at first second
    split at first <;> split at second <;>
      first | exact supplied.single first second | cases first | cases second

/-- A value without a spill slot gets a new one. -/
theorem spill (supplied : Supplied file cls s)
    (below : ∀ {w k}, s.places.lookup w = some (.spill k) → k < s.spilled)
    (unspilled : ∀ k, s.places.lookup v ≠ some (.spill k)) (as : List Active) :
    Supplied file cls { s.spill v with active := as } where
  offers := supplied.offers
  registers {w reg} look := by
    change (s.spill v).places.lookup w = _ at look
    rw [lookup_spill] at look
    split at look
    · cases look
    · exact supplied.registers look
  filled k smaller := by
    change ∃ w, (s.spill v).places.lookup w = _
    rcases Nat.lt_succ_iff_lt_or_eq.1 smaller with old | rfl
    · obtain ⟨w, look⟩ := supplied.filled k old
      refine ⟨w, ?_⟩
      rw [lookup_spill, if_neg, look]
      rintro rfl
      exact unspilled k look
    · exact ⟨v, by rw [lookup_spill, if_pos rfl]⟩
  single {w u k} first second := by
    change (s.spill v).places.lookup w = _ at first
    change (s.spill v).places.lookup u = _ at second
    rw [lookup_spill] at first second
    split at first <;> split at second
    · rename_i isV isV'
      exact isV.trans isV'.symm
    · cases first
      exact absurd (below second) (Nat.lt_irrefl _)
    · cases second
      exact absurd (below first) (Nat.lt_irrefl _)
    · exact supplied.single first second

/-- Registers come from the file and fit the class of the value; no two values share a spill
slot. -/
theorem step (supplied : Supplied file cls s) (classed : file.Classed) (keeps : s.Keeps done i)
    (new : ∀ t, (v, t) ∉ done) (starts : i ≤ r.start) : Supplied file cls (s.step (cls v) v r) := by
  have supplied := supplied.expire r.start
  have keeps := keeps.expire starts
  have nowhere : (s.expire r.start).places.lookup v = none := by
    cases look : (s.expire r.start).places.lookup v with
    | none => rfl
    | some loc =>
      obtain ⟨t, inside⟩ := keeps.known look
      exact absurd inside (new t)
  have unspilled : ∀ k, (s.expire r.start).places.lookup v ≠ some (.spill k) := by simp [nowhere]
  rcases s.step_cases (cls v) v r with ⟨reg, handed, same⟩ | ⟨-, same | ⟨a, member, sameClass, same⟩⟩ <;>
    rw [same]
  · have next : Supplied file cls
        { s.expire r.start with file := ((s.expire r.start).file.next (cls v)).2 } :=
      ⟨fun offered => supplied.offers (RegisterFile.offers_next.1 offered), supplied.registers,
        supplied.filled, supplied.single⟩
    exact next.assign (supplied.offers (RegisterFile.next_offers handed)) unspilled
  · exact supplied.spill keeps.spills unspilled _
  · -- the register that changes hands is of the class of both values
    have held := (keeps.active a member).1
    have offered := supplied.registers held
    rw [(offered.cls classed).symm.trans sameClass] at offered
    refine (supplied.spill keeps.spills (by simp [held]) _).assign offered fun k => ?_
    change (Scan.spill _ _).places.lookup v ≠ _
    rw [lookup_spill, if_neg]
    · exact unspilled k
    · rintro rfl
      rw [nowhere] at held
      cases held

end Supplied

end Scan

/-! ## Functions -/

/-- Some number is between the start and the stop of both sets. -/
def RangeSet.Overlap (r t : RangeSet) : Prop :=
  ∃ i, (r.start ≤ i ∧ i < r.stop) ∧ t.start ≤ i ∧ i < t.stop

namespace Func

variable {f g : Func} {file : RegisterFile} {iv : Intervals} {S : Value → Int → Prop} {stats : AllocStats}

/-- The place that is written in the instruction of a value. -/
def locOf (g : Func) (v : Value) : Loc := ((g.instr? v).map Instr.loc).getD .unassigned

/-- The values of a function are where a scan put their classes. -/
structure Assigned (g : Func) (file : RegisterFile) (iv : Intervals) (spilled : Nat)
    (place : Value → Loc) : Prop where
  /-- A value is in a temporary of its class, or in a spill slot. -/
  located : ∀ {n i}, n ∈ g.instrs → g.arena[n]? = some i → i.hasValue = true →
    (∃ k ∈ (file.bank i.type.regClass).temps,
      i.loc = .register ((file.bank i.type.regClass).register k)) ∨ ∃ k < spilled, i.loc = .spill k
  /-- All values of a class are in the place of its representative. -/
  members : ∀ {n i}, n ∈ g.instrs → g.arena[n]? = some i → i.hasValue = true →
    iv.representative n ∈ iv.values ∧ i.loc = place (iv.representative n)
  apart : ∀ {v w r t}, (v, r) ∈ iv.entries → (w, t) ∈ iv.entries → v ≠ w → r.Overlap t →
    place v ≠ place w
  slots : ∀ {v k}, v ∈ iv.values → place v = .spill k → k < spilled
  filled : ∀ k < spilled, ∃! v, v ∈ iv.values ∧ place v = .spill k

/-- An assignment only depends on the places of the representatives. -/
theorem Assigned.congr {spilled : Nat} {place place' : Value → Loc}
    (assigned : g.Assigned file iv spilled place) (same : ∀ v ∈ iv.values, place v = place' v) :
    g.Assigned file iv spilled place' where
  located := assigned.located
  members inside known value := by
    obtain ⟨owner, loc⟩ := assigned.members inside known value
    exact ⟨owner, loc.trans (same _ owner)⟩
  apart first second other overlap := by
    rw [← same _ (List.mem_map_of_mem first), ← same _ (List.mem_map_of_mem second)]
    exact assigned.apart first second other overlap
  slots member spill := assigned.slots member ((same _ member).trans spill)
  filled k below := by
    obtain ⟨v, ⟨member, spill⟩, only⟩ := assigned.filled k below
    refine ⟨v, ⟨member, (same v member).symm.trans spill⟩, ?_⟩
    rintro w ⟨member', spill'⟩
    exact only w ⟨member', (same w member').trans spill'⟩

/-! ## Representatives -/

def Owns (f : Func) (v : Value) : Prop := ∃ n ∈ f.instrs, f.Computes n v

theorem Annotates.owns {v : Value} (same : f.Annotates g) (owns : f.Owns v) : g.Owns v := by
  obtain ⟨n, inside, rfl, value⟩ := owns
  obtain ⟨i, known, value⟩ := (Option.any_eq_true _ _).1 value
  obtain ⟨j, known', like⟩ := same.instr known
  exact ⟨n, same.instrs ▸ inside, rfl, by
    rw [known', Option.any_some, like.hasValue, value]⟩

namespace Listed

variable {iv₀ : Intervals} (listed : f.Listed) (ran : f.liveRanges = .ok iv₀) {v : Value}

include listed ran

/-- Every operand is a value that an instruction of the code computes. -/
theorem operand {n : Nat} {i : Instr} (member : (n, i) ∈ f.code) (used : v ∈ i.args) :
    f.Owns v := by
  have defined : f.isDefined v = true := by
    unfold liveRanges at ran
    split at ran
    · cases ran
    · rename_i none
      rw [undefinedOperand?, List.findSome?_eq_none_iff] at none
      simpa using List.find?_eq_none.1 (Option.map_eq_none_iff.1 (none (n, i) member)) v used
  unfold isDefined at defined
  cases v with
  | negSucc k => cases defined
  | ofNat m =>
    split at defined
    · rename_i j known
      obtain ⟨named, value⟩ := Bool.and_eq_true_iff.1 defined
      obtain ⟨b, named⟩ := Option.isSome_iff_exists.1 named
      have known : f.arena[m]? = some j := known
      exact ⟨m, listed m b j known named, rfl, by simp [known, value]⟩
    · cases defined

/-- Live values are operands, so some instruction computes them. -/
theorem liveIn {b : Nat} (live : v ∈ f.liveIn.getD b []) : f.Owns v := by
  refine liveIn_least (P := fun _ => f.Owns) (fun b inside v needed => ?_) live
  rcases needed.cases with ⟨c, -, later⟩ | ⟨n, here, i, known, used⟩
  · exact later
  · exact listed.operand ran (mem_code.2 ⟨List.mem_flatMap.2 ⟨b, inside, here⟩, known⟩) used

/-- Every live range is one of such a value. -/
theorem range {r : Range} (range : (v, r) ∈ f.layout.flatMap (f.blockRanges f.liveIn)) :
    f.Owns v := by
  obtain ⟨b, inside, range⟩ := List.mem_flatMap.1 range
  have here : ∀ {n}, n ∈ (f.block b).instrs → n ∈ f.instrs := fun member =>
    List.mem_flatMap.2 ⟨b, inside, member⟩
  cases head : (f.block b).instrs.head? with
  | none => simp [blockRanges, head] at range
  | some first =>
    cases tail : (f.block b).instrs.getLast? with
    | none => simp [blockRanges, tail] at range
    | some last =>
      rcases mem_blockRanges head tail range with ⟨out, -⟩ | ⟨n, member, i, known, used, -⟩ |
        ⟨n, member, computes, -⟩
      · obtain ⟨c, -, live⟩ := mem_liveOut.1 out
        exact listed.liveIn ran live
      · exact listed.operand ran (mem_code.2 ⟨here member, known⟩) used
      · exact ⟨n, here member, computes⟩

/-- The representatives of classes are values of the function. -/
theorem values {k : Nat} (joined : f.coalesce iv₀ f.code = .ok (k, iv))
    (member : v ∈ iv.values) : f.Owns v := by
  obtain ⟨sound₀, single⟩ := liveRanges_sound ran
  have owned₀ : iv₀.OwnedBy f.Owns := by
    refine ⟨fun {v s} known => ?_, fun {v} owns => ?_⟩
    · obtain ⟨r, range⟩ := (liveRanges_lookup ran).1 ⟨s, known⟩
      exact listed.range ran range
    · rwa [Intervals.Sound.representative_single single]
  obtain ⟨sound, owned⟩ := coalesce_keeps (P := fun iv => iv.Sound f.LiveAt ∧ iv.OwnedBy f.Owns)
    (fun member args before => ⟨before.1.join _ _ _,
      before.1.join_ownedBy before.2 (listed.operand ran member (by simp [args])) _ _⟩)
    joined ⟨sound₀, owned₀⟩
  obtain ⟨⟨w, s⟩, entry, rfl⟩ := List.mem_map.1 member
  exact owned.owner (sound.keyed.lookup_iff.2 ((sorted_perm _).mem_iff.1 entry))

end Listed

/-! ## Allocation -/

theorem coalesce_class {iv₀ : Intervals} {code : List (Nat × Instr)} {k : Nat}
    (ran : f.coalesce iv₀ code = .ok (k, iv)) (sound : iv₀.Sound S) (single : iv₀.parents = []) (v : Value) :
    f.classOf (iv.representative v) = f.classOf v := by
  have all := coalesce_keeps
    (P := fun iv => iv.Sound S ∧ ∀ v, f.classOf (iv.representative v) = f.classOf v)
    (fun _ _ before => ⟨before.1.join _ _ _, before.1.join_shared _ _ eq_of_beq before.2⟩) ran
    ⟨sound, fun v => by rw [Intervals.Sound.representative_single single]⟩
  exact all.2 v

/-- What an allocation that succeeds went through. -/
theorem allocate_cases (allocated : f.allocate file = (g, .ok stats)) :
    ∃ iv₀ iv, f.number.liveRanges = .ok iv₀ ∧
      f.number.coalesce iv₀ f.number.code = .ok (stats.coalesced, iv) ∧
      g = f.number.setPlaces iv (f.number.scan file iv) ∧
      stats.spilled = (f.number.scan file iv).spilled ∧
      ∀ {n i}, (n, i) ∈ f.number.code → i.hasValue = true →
        ∃ loc, place? iv (f.number.scan file iv) n = some loc := by
  unfold allocate intervals at allocated
  cases ranges : f.number.liveRanges with
  | error e => simp [ranges] at allocated
  | ok iv₀ =>
    simp only [ranges] at allocated
    cases joined : f.number.coalesce iv₀ f.number.code with
    | error e => simp [allocateWith, joined, bind, Except.bind] at allocated
    | ok p =>
      obtain ⟨k, iv⟩ := p
      simp only [allocateWith, joined, bind, Except.bind] at allocated
      cases missing : (f.number.code.filter fun p => p.2.hasValue).find? fun p =>
          (place? iv (f.number.scan file iv) p.1).isNone with
      | some p => simp [missing, throw, throwThe, MonadExceptOf.throw] at allocated
      | none =>
        simp only [missing, pure, Except.pure] at allocated
        cases allocated
        refine ⟨iv₀, iv, rfl, joined, rfl, rfl, fun {n i} member value => ?_⟩
        have here := List.find?_eq_none.1 missing (n, i) (List.mem_filter.2 ⟨member, value⟩)
        exact Option.ne_none_iff_exists'.1 (by simpa using here)

/-- An instruction has the place of its value, which is one for its type. -/
theorem setPlaces_instr {s : Scan} {n : Nat} {i : Instr} {loc : Loc} (member : n ∈ f.instrs)
    (known : (f.setPlaces iv s).arena[n]? = some i) (value : i.hasValue = true)
    (placed : place? iv s n = some loc) : i.loc = loc ∧ f.classOf n = i.type.regClass := by
  obtain ⟨i₀, known₀, like⟩ := (annotates_setPlaces f iv s).symm.instr known
  have inside : f.instrs.contains n = true := by simpa using member
  rw [setPlaces_arena, known₀, Option.map_some, like.hasValue, value, inside, placed] at known
  have instr : f.instr? (n : Value) = some i₀ := by simpa [instr?] using known₀
  exact ⟨congrArg Instr.loc (Option.some.inj known.symm), by simp only [classOf, instr, like.type]⟩

/-- A scan that has a place for every value of a function has places for all classes, as
registers and spill slots allow. -/
theorem scan_assigned (classed : file.Classed) (sound : iv.Sound S)
    (oneClass : ∀ v, f.classOf (iv.representative v) = f.classOf v)
    (placed : ∀ {n i}, (n, i) ∈ f.code → i.hasValue = true →
      ∃ loc, place? iv (f.scan file iv) n = some loc) :
    (f.setPlaces iv (f.scan file iv)).Assigned file iv (f.scan file iv).spilled
      (f.scan file iv).locOf := by
  obtain ⟨j, keeps, supplied⟩ := f.scan_run classed sound
    (P := fun s _ _ => Scan.Supplied file f.classOf s)
    (fun keeps new starts _ supplied => supplied.step classed keeps new starts)
    fun _ => Scan.Supplied.start file f.classOf
  generalize f.scan file iv = s at keeps supplied placed ⊢
  have listed : ∀ {v loc}, s.places.lookup v = some loc → v ∈ iv.values := by
    intro v loc look
    obtain ⟨r, inside⟩ := keeps.known look
    exact List.mem_map.2 ⟨(v, r), List.mem_reverse.1 inside, rfl⟩
  have found : ∀ {v loc}, s.places.lookup v = some loc → s.locOf v = loc := by
    intro v loc look
    rw [Scan.locOf, look, Option.getD_some]
  have spill : ∀ {v k}, s.locOf v = .spill k → s.places.lookup v = some (.spill k) := by
    intro v k same
    unfold Scan.locOf at same
    cases look : s.places.lookup v <;> rw [look] at same <;> cases same
    rfl
  have written : ∀ {n i}, n ∈ f.instrs → (f.setPlaces iv s).arena[n]? = some i → i.hasValue = true →
      s.places.lookup (iv.representative n) = some i.loc ∧ f.classOf n = i.type.regClass := by
    intro n i member known value
    obtain ⟨i₀, known₀, like⟩ := (annotates_setPlaces f iv s).symm.instr known
    obtain ⟨loc, look⟩ := placed (mem_code.2 ⟨member, known₀⟩)
      (like.hasValue.trans value)
    obtain ⟨rfl, cls⟩ := setPlaces_instr member known value look
    exact ⟨look, cls⟩
  refine ⟨fun {n i} member known value => ?_, fun {n i} member known value => ?_,
    fun {v w r t} first second other overlap same => ?_, fun {v k} _ same => keeps.spills (spill same),
    fun k below => ?_⟩
  · obtain ⟨look, cls⟩ := written member known value
    cases loc : i.loc with
    | unassigned =>
      obtain ⟨r, inside⟩ := keeps.known look
      obtain ⟨c, cell⟩ := keeps.placed inside
      rw [Scan.cell?, look, loc] at cell
      cases cell
    | register reg =>
      rw [loc] at look
      obtain ⟨k, offered, same⟩ := supplied.registers look
      rw [oneClass, cls] at offered same
      exact .inl ⟨k, offered, congrArg Loc.register same⟩
    | spill k =>
      rw [loc] at look
      exact .inr ⟨k, keeps.spills look, rfl⟩
  · obtain ⟨look, -⟩ := written member known value
    exact ⟨listed look, (found look).symm⟩
  · have inside := List.mem_reverse.2 first
    have inside' := List.mem_reverse.2 second
    obtain ⟨c, cell⟩ := keeps.placed inside
    obtain ⟨c', cell'⟩ := keeps.placed inside'
    obtain ⟨loc, look, -⟩ := Option.bind_eq_some_iff.1 cell
    obtain ⟨loc', look', -⟩ := Option.bind_eq_some_iff.1 cell'
    rw [found look, found look'] at same
    have cells : s.cell? v = s.cell? w := by
      rw [Scan.cell?, Scan.cell?, look, look']
      exact congrArg Loc.cell? same
    have ended := keeps.apart inside inside' other cells
    obtain ⟨i, ⟨from₁, to₁⟩, from₂, to₂⟩ := overlap
    omega
  · obtain ⟨v, look⟩ := supplied.filled k below
    refine ⟨v, ⟨listed look, found look⟩, ?_⟩
    rintro w ⟨-, same⟩
    exact supplied.single (spill same) look

/-- Representatives have the places that are written in their instructions. -/
theorem Assigned.written {spilled : Nat} {place : Value → Loc} (sound : iv.Sound S)
    (assigned : g.Assigned file iv spilled place) (owned : ∀ v ∈ iv.values, g.Owns v) :
    g.Assigned file iv spilled g.locOf := by
  refine assigned.congr fun v member => ?_
  obtain ⟨n, inside, rfl, value⟩ := owned v member
  obtain ⟨i, known, value⟩ := (Option.any_eq_true _ _).1 value
  obtain ⟨⟨w, s⟩, entry, same⟩ := List.mem_map.1 member
  have owner := sound.owners (sound.keyed.lookup_iff.2 ((sorted_perm _).mem_iff.1 entry))
  rw [show w = (n : Value) from same] at owner
  have loc := (assigned.members inside known value).2
  have instr : g.instr? (n : Value) = some i := known
  rw [owner] at loc
  rw [locOf, instr, ← loc]
  rfl

/-- Wherever allocation succeeds, every value is in a temporary of its class or in a spill
slot, joined values are in one place, classes whose hulls overlap are in different places, and
each of the spill slots is that of one class. The place of a class is the one that the scan gave
to its representative. If the instructions that name a block are in the layout, it is the one that
is written in the instruction of the representative; functions that calls make are such, and they
are when dead code has been removed. -/
theorem linear_scan_is_sound {arch : Arch} (allocated : f.allocate arch.registers = (g, .ok stats)) :
    f.Annotates g ∧ (∃ iv₀ iv, f.intervals = (f.number, .ok iv₀) ∧
      f.number.coalesce iv₀ f.number.code = .ok (stats.coalesced, iv) ∧
      g.Assigned arch.registers iv stats.spilled (f.number.scan arch.registers iv).locOf ∧
      (f.Listed → g.Assigned arch.registers iv stats.spilled g.locOf)) ∧
    ∀ h : Func, h.Made → h.Listed ∧ h.buildFlow.1.Listed := by
  obtain ⟨iv₀, iv, ranges, joined, rfl, spilled, placed⟩ := allocate_cases allocated
  obtain ⟨sound₀, single⟩ := liveRanges_sound ranges
  have sound := coalesce_keeps (P := fun iv => iv.Sound _) (fun _ _ sound => sound.join _ _ _) joined sound₀
  have numbers := f.annotates_number
  have places := annotates_setPlaces f.number iv (f.number.scan arch.registers iv)
  have assigned := scan_assigned arch.registers_classed sound (coalesce_class joined sound₀ single) placed
  rw [spilled]
  refine ⟨numbers.trans places, ⟨iv₀, iv, by rw [intervals, ranges], joined, assigned, fun listed => ?_⟩,
    fun h made => ⟨made.listed, made.listed.buildFlow⟩⟩
  exact assigned.written sound fun v member =>
    places.owns ((numbers.listed listed).values ranges joined member)

/-- Calls for a function with 22 integers at once, one of them a copy. -/
def crowdedCalls : List Call :=
  [.function "crowded" .int [], .block 0 0]
    ++ (List.range 22).map (fun n => .instr 0 0 (.int n.toInt64))
    ++ [.instr 0 0 (.copy (.own 21)), .instr 0 0 (.arith .add (.own 0) (.own 22))]
    ++ (List.range 20).map (fun n => .instr 0 0 (.arith .add (.own (23 + n)) (.own (1 + n))))
    ++ [.instr 0 0 (.ret (some (.own 43)))]

/-- More integers at once than there are registers, which are 20. -/
def crowded : Func :=
  ((Module.empty "m").after crowdedCalls).functions.headD (Func.empty "none" .int [])

theorem crowded_made : crowded.Made := by
  have some : ((Module.empty "m").after crowdedCalls).functions.isEmpty = false := by decide +kernel
  refine ⟨"m", crowdedCalls, ?_⟩
  rw [crowded]
  cases whole : ((Module.empty "m").after crowdedCalls).functions with
  | nil => simp [whole] at some
  | cons f rest => exact List.mem_cons_self

theorem crowded_is_assigned : ∃ g stats, crowded.allocate Arch.aarch64.registers = (g, .ok stats) ∧
    stats.spilled = 3 ∧ stats.coalesced = 1 ∧ crowded.Annotates g ∧
    ∃ iv₀ iv, crowded.intervals = (crowded.number, .ok iv₀) ∧
      crowded.number.coalesce iv₀ crowded.number.code = .ok (stats.coalesced, iv) ∧
      g.Assigned Arch.aarch64.registers iv stats.spilled g.locOf := by
  have facts : (crowded.allocate Arch.aarch64.registers).2.toOption.map
      (fun stats => (stats.spilled, stats.coalesced)) = some (3, 1) := by decide +kernel
  obtain ⟨stats, ran, counts⟩ := Option.map_eq_some_iff.1 facts
  obtain ⟨spilled, coalesced⟩ := Prod.mk.inj counts
  cases allocated : crowded.allocate Arch.aarch64.registers with
  | mk g result =>
    rw [allocated] at ran
    cases Except.toOption_eq_some.1 ran
    obtain ⟨same, ⟨iv₀, iv, ranges, joined, -, written⟩, listed⟩ := linear_scan_is_sound allocated
    exact ⟨g, stats, rfl, spilled, coalesced, same, iv₀, iv, ranges, joined,
      written (listed crowded crowded_made).1⟩

end Func

end ImpCompiler
