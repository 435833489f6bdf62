import ImpCompiler.Proofs.Code.Ordering
import ImpCompiler.Proofs.Lower.Dominance

/-!
# Proofs.Live.Exact — live ranges have no numbers but those at which values are live

A value is live behind an instruction if control can get from there to a use of it without
computing it again (`Func.LiveAfter`). Within a block that is what the block needs behind the
instruction (`Formed.liveAfter_iff`). The ranges of a block have numbers of the block only, so a
value is live at the number of an instruction if the instruction computes it, if the value is
live behind it, or if the instruction uses it and is no copy.
-/

namespace ImpCompiler

set_option autoImplicit false

namespace Func

variable {f g : Func} {v : Value} {b m n : Nat}

/-! ## Ways of control between instructions -/

/-- Control goes from instruction `n` to instruction `m` next. -/
inductive Follows (f : Func) (n m : Nat) : Prop
  | within {b : BlockId} {before behind : List Nat} (listed : b ∈ f.layout)
      (whole : (f.block b).instrs = before ++ n :: m :: behind)
  | across {b c : BlockId} {body rest : List Nat} (listed : b ∈ f.layout)
      (last : (f.block b).instrs = body ++ [n]) (goes : c ∈ (f.block b).succs)
      (first : (f.block c).instrs = m :: rest)

def UsesValue (f : Func) (n : Nat) (v : Value) : Prop := ∃ i, f.arena[n]? = some i ∧ v ∈ i.args

/-- Control can get from behind an instruction to a use of the value, on a way on which the
value is not computed. -/
inductive LiveAfter (f : Func) (v : Value) : Nat → Prop
  | use {n m : Nat} (next : f.Follows n m) (used : f.UsesValue m v) : LiveAfter f v n
  | pass {n m : Nat} (next : f.Follows n m) (other : (m : Value) ≠ v) (later : LiveAfter f v m) :
      LiveAfter f v n

/-- Annotations do not change where a value is live. -/
theorem Annotates.liveAfter (same : f.Annotates g) (live : f.LiveAfter v n) : g.LiveAfter v n := by
  have follows : ∀ {n m}, f.Follows n m → g.Follows n m := by
    rintro n m (⟨listed, whole⟩ | ⟨listed, last, goes, first⟩)
    · exact .within (same.layout ▸ listed) (same.block _ ▸ whole)
    · exact .across (same.layout ▸ listed) (same.block _ ▸ last) (same.block _ ▸ goes)
        (same.block _ ▸ first)
  induction live with
  | use next used =>
    obtain ⟨i, known, used⟩ := used
    obtain ⟨j, known', like⟩ := same.instr known
    exact .use (follows next) ⟨j, known', like.args ▸ used⟩
  | pass next other _ ih => exact .pass (follows next) other ih

section Needed

variable (formed : f.Formed) {before rest : List Nat}

include formed

/-- An instruction is at one point of a function. -/
theorem Formed.split_unique {c : Nat} {before rest before' rest' : List Nat}
    (whole : (f.block b).instrs = before ++ n :: rest)
    (whole' : (f.block c).instrs = before' ++ n :: rest') : b = c ∧ rest = rest' := by
  obtain rfl : b = c := formed.unique (n := n) (by simp [whole]) (by simp [whole'])
  have once := formed.once b
  rw [whole, List.nodup_append, List.nodup_cons] at once
  have same := (List.append_cons_inj_of_notMem (fun member => once.2.2 n member n (by simp) rfl)
    once.2.1.1).1 (whole.symm.trans whole')
  exact ⟨rfl, same.2.2⟩

/-- Of what is live behind an instruction its block is in need. -/
theorem Formed.needs_of_liveAfter (live : f.LiveAfter v n) (listed : b ∈ f.layout)
    (whole : (f.block b).instrs = before ++ n :: rest) :
    f.Needs (· ∈ f.liveOut f.liveIn b) rest v := by
  -- what the next block needs is live at the end of this one
  have across : ∀ {b c : Nat} {rest : List Nat}, b ∈ f.layout → c ∈ (f.block b).succs →
      (f.block c).instrs = rest → f.Needs (· ∈ f.liveOut f.liveIn c) rest v →
      v ∈ f.liveOut f.liveIn b := by
    rintro b c _ listed goes rfl needed
    have listed' := formed.mem_of_goes listed (formed.succs b listed ▸ goes)
    exact mem_liveOut.2 ⟨c, goes, liveIn_closed (fun _ => formed.layout_lt) listed' needed⟩
  induction live generalizing b before rest with
  | @use n m next used =>
    cases next with
    | within listed' whole' =>
      obtain ⟨rfl, rfl⟩ := formed.split_unique whole whole'
      exact .inl used
    | across listed' last goes first =>
      obtain ⟨rfl, rfl⟩ := formed.split_unique whole last
      exact across listed goes first (.inl used)
  | @pass n m next other _ ih =>
    have leftAlone : ¬ f.Computes m v := fun computes => other computes.1.symm
    cases next with
    | @within _ before' behind listed' whole' =>
      obtain ⟨rfl, rfl⟩ := formed.split_unique whole whole'
      have next' : (f.block b).instrs = (before' ++ [n]) ++ m :: behind := by simp [whole']
      exact .inr ⟨leftAlone, ih listed next'⟩
    | @across _ c body rest' listed' last goes first =>
      obtain ⟨rfl, rfl⟩ := formed.split_unique whole last
      have listed'' := formed.mem_of_goes listed (formed.succs _ listed ▸ goes)
      exact across listed goes first (.inr ⟨leftAlone,
        ih listed'' (show (f.block c).instrs = [] ++ m :: rest' from first)⟩)

omit formed in
/-- Control gets to a use of what a block needs behind an instruction. -/
theorem liveAfter_of_needs {out : Value → Prop} (value : ∃ k, f.Computes k v)
    (listed : b ∈ f.layout) (whole : (f.block b).instrs = before ++ n :: rest)
    (leaves : out v → ∃ c ∈ (f.block b).succs, ∃ m rest, (f.block c).instrs = m :: rest ∧
      (f.UsesValue m v ∨ ((m : Value) ≠ v ∧ f.LiveAfter v m)))
    (needed : f.Needs out rest v) : f.LiveAfter v n := by
  induction rest generalizing before n with
  | nil =>
    obtain ⟨c, goes, m, rest, first, used | ⟨other, later⟩⟩ := leaves needed
    · exact .use (.across listed whole goes first) used
    · exact .pass (.across listed whole goes first) other later
  | cons m rest ih =>
    rcases needed with used | ⟨leftAlone, needed⟩
    · exact .use (.within listed whole) used
    · have next : (f.block b).instrs = (before ++ [n]) ++ m :: rest := by simp [whole]
      refine .pass (.within listed whole) ?_ (ih next needed)
      rintro rfl
      obtain ⟨k, same, computes⟩ := value
      cases Int.ofNat.inj same
      exact leftAlone ⟨rfl, computes⟩

/-- A value that is live into a block is used by its first instruction or live behind it. -/
theorem Formed.liveAfter_of_liveIn (value : ∃ k, f.Computes k v) {c : Nat}
    (live : v ∈ f.liveIn.getD c []) : ∃ m rest, (f.block c).instrs = m :: rest ∧
      (f.UsesValue m v ∨ ((m : Value) ≠ v ∧ f.LiveAfter v m)) := by
  refine liveIn_least (P := fun c v => (∃ k, f.Computes k v) → ∃ m rest, (f.block c).instrs = m :: rest ∧
    (f.UsesValue m v ∨ ((m : Value) ≠ v ∧ f.LiveAfter v m))) ?_ live value
  intro b listed v needed value
  have some : (f.block b).instrs ≠ [] := by
    obtain ⟨body, n, -, whole, -⟩ := formed.ends b listed
    simp [whole]
  obtain ⟨m, rest, whole⟩ := List.exists_cons_of_ne_nil some
  refine ⟨m, rest, whole, ?_⟩
  rw [whole] at needed
  refine needed.imp id fun ⟨leftAlone, needed⟩ => ⟨?_, ?_⟩
  · rintro rfl
    obtain ⟨k, same, computes⟩ := value
    cases Int.ofNat.inj same
    exact leftAlone ⟨rfl, computes⟩
  · refine liveAfter_of_needs value listed (show (f.block b).instrs = [] ++ m :: rest from whole) ?_ needed
    rintro ⟨c, goes, there⟩
    exact ⟨c, goes, there value⟩

theorem Formed.liveAfter_iff (value : ∃ k, f.Computes k v) (listed : b ∈ f.layout)
    (whole : (f.block b).instrs = before ++ n :: rest) :
    f.LiveAfter v n ↔ f.Needs (· ∈ f.liveOut f.liveIn b) rest v := by
  refine ⟨fun live => formed.needs_of_liveAfter live listed whole, fun needed => ?_⟩
  refine liveAfter_of_needs value listed whole (fun out => ?_) needed
  obtain ⟨c, goes, live⟩ := mem_liveOut.1 out
  exact ⟨c, goes, formed.liveAfter_of_liveIn value live⟩

end Needed

/-- Instructions that use a value and do not compute it need it. -/
theorem needs_of_use {out : Value → Prop} {ns : List Nat} (leftAlone : ∀ m ∈ ns, ¬ f.Computes m v)
    (member : n ∈ ns) (used : f.UsesValue n v) : f.Needs out ns v := by
  induction ns with
  | nil => cases member
  | cons m ns ih =>
    obtain ⟨here, others⟩ := List.forall_mem_cons.1 leftAlone
    rcases List.mem_cons.1 member with rfl | later
    · exact .inl used
    · exact .inr ⟨here, ih others later⟩

/-! ## The numbers of a block's ranges -/

/-- Every range ends at a use of the value, or is that of the instruction that computes it. -/
theorem mem_rangesBackward {start : Int} {live : List Value} {ns : List Nat} {r : Range}
    (range : (v, r) ∈ f.rangesBackward b start live ns) :
    (∃ m ∈ ns, ∃ i, f.arena[m]? = some i ∧ v ∈ i.args ∧ r = ⟨f.liveFrom b start v, f.useEnd m i⟩) ∨
      ∃ m ∈ ns, f.Computes m v ∧ r = ⟨f.indexOf m, f.indexOf m + 1⟩ := by
  induction ns generalizing live with
  | nil => cases range
  | cons n ns ih =>
    cases known : f.arena[n]? with
    | none =>
      rw [rangesBackward_none known] at range
      simpa only [List.mem_cons, exists_eq_or_imp] using (ih range).imp .inr .inr
    | some i =>
      rcases (mem_rangesBackward_some known).1 range with ⟨last, same⟩ | ⟨⟨own, value, -⟩, same⟩ | rest
      · exact .inl ⟨n, by simp, i, known, (mem_lastUses.1 last).1, same⟩
      · exact .inr ⟨n, by simp, ⟨own, by simp [known, value]⟩, same⟩
      · simpa only [List.mem_cons, exists_eq_or_imp] using (ih rest).imp .inr .inr

/-- A range of a block goes up to the end of the block or to a use, or it is that of an
instruction of the block. -/
theorem mem_blockRanges {first last : Nat} {live : LiveSets} {r : Range}
    (head : (f.block b).instrs.head? = some first) (tail : (f.block b).instrs.getLast? = some last)
    (range : (v, r) ∈ f.blockRanges live b) :
    (v ∈ f.liveOut live b ∧ r = ⟨f.liveFrom b (f.indexOf first) v, f.indexOf last + 1⟩) ∨
      (∃ m ∈ (f.block b).instrs, ∃ i, f.arena[m]? = some i ∧ v ∈ i.args ∧
        r = ⟨f.liveFrom b (f.indexOf first) v, f.useEnd m i⟩) ∨
      ∃ m ∈ (f.block b).instrs, f.Computes m v ∧ r = ⟨f.indexOf m, f.indexOf m + 1⟩ := by
  rw [blockRanges, head, tail] at range
  rcases List.mem_append.1 range with out | inner
  · obtain ⟨w, member, same⟩ := List.mem_map.1 out
    cases same
    exact .inl ⟨member, rfl⟩
  · simpa using Or.inr (mem_rangesBackward inner)

/-- The numbers from that of a block's first instruction to that of its last are those of its
instructions. -/
theorem Numbered.exists_index (numbered : f.Numbered) (listed : b ∈ f.layout) {first last : Nat}
    (head : (f.block b).instrs.head? = some first) (tail : (f.block b).instrs.getLast? = some last)
    {k : Int} (low : f.indexOf first ≤ k) (high : k ≤ f.indexOf last) :
    ∃ n ∈ (f.block b).instrs, f.indexOf n = k := by
  obtain ⟨base, index⟩ := numbered b listed
  have at' : ∀ {j n : Nat}, (f.block b).instrs[j]? = some n → f.indexOf n = base + j := by
    intro j n here
    obtain ⟨i, known, index⟩ := index here
    simp [indexOf, known, index]
  rw [List.head?_eq_getElem?] at head
  rw [List.getLast?_eq_getElem?] at tail
  rw [at' head] at low
  rw [at' tail] at high
  obtain ⟨inside, -⟩ := List.getElem?_eq_some_iff.1 tail
  obtain ⟨j, rfl⟩ : ∃ j : Nat, k = base + j := ⟨(k - base).toNat, by omega⟩
  have bound : j < (f.block b).instrs.length := by omega
  exact ⟨_, List.getElem_mem bound, at' (List.getElem?_eq_getElem bound)⟩

section Numbers

variable (formed : f.Formed) (numbered : f.Numbered) (listed : b ∈ f.layout)

include formed numbered listed

/-- A value does not start to be live in a block before the block starts. -/
theorem Formed.le_liveFrom {first : Nat} (head : (f.block b).instrs.head? = some first)
    (member : m ∈ f.instrs) : f.indexOf first ≤ f.liveFrom b (f.indexOf first) m := by
  obtain ⟨c, -, there⟩ := List.mem_flatMap.1 member
  obtain ⟨i, known, owner⟩ := formed.owner c m there
  by_cases here : c = b
  · rw [liveFrom_own known (here ▸ owner)]
    exact numbered.first_le listed head (here ▸ there)
  · rw [liveFrom_other known (by simpa [owner] using here)]

/-- The ranges of a block have numbers of its instructions only. -/
theorem Formed.range_within (member : m ∈ f.instrs) {live : LiveSets} {r : Range}
    (range : ((m : Value), r) ∈ f.blockRanges live b) {k : Int} (inside : k ∈ r) :
    ∃ n ∈ (f.block b).instrs, f.indexOf n = k := by
  obtain ⟨first, last, head, tail⟩ := formed.bounds listed
  have low := formed.le_liveFrom numbered listed head member
  obtain ⟨above, below⟩ := inside
  rcases mem_blockRanges head tail range with ⟨-, rfl⟩ | ⟨n, here, i, -, -, rfl⟩ | ⟨n, here, -, rfl⟩
  · exact numbered.exists_index listed head tail (Int.le_trans low above) (Int.lt_add_one_iff.1 below)
  · have high := numbered.le_last listed tail here
    have ends : f.useEnd n i ≤ f.indexOf n + 1 := by
      unfold useEnd
      split <;> omega
    exact numbered.exists_index listed head tail (Int.le_trans low above) (by simp only at below; omega)
  · exact ⟨n, here, by simp only at above below; omega⟩

/-- What is not live at the number of an instruction has no range with it. -/
theorem Formed.range_exact {i : Instr} {before rest : List Nat}
    (whole : (f.block b).instrs = before ++ n :: rest) (known : f.arena[n]? = some i) {r : Range}
    (range : (v, r) ∈ f.blockRanges f.liveIn b) (inside : f.indexOf n ∈ r) :
    v = (n : Value) ∨ f.Needs (· ∈ f.liveOut f.liveIn b) rest v ∨ (v ∈ i.args ∧ i.op ≠ .copy) := by
  obtain ⟨first, last, head, tail⟩ := formed.bounds listed
  have order := numbered.increasing listed
  rw [whole] at order
  have behind := (List.pairwise_cons.1 (List.pairwise_append.1 order).2.1).1
  have earlier := (List.pairwise_append.1 order).2.2
  -- a value that is live from before the instruction is not computed behind it
  have leftAlone : f.liveFrom b (f.indexOf first) v ≤ f.indexOf n → ∀ m ∈ rest, ¬ f.Computes m v := by
    rintro starts m member ⟨rfl, -⟩
    obtain ⟨j, known', owner⟩ := formed.owner b m (by simp [whole, member])
    rw [liveFrom_own known' owner] at starts
    have := behind m member
    omega
  obtain ⟨above, below⟩ := inside
  rcases mem_blockRanges head tail range with
    ⟨out, rfl⟩ | ⟨m, here, j, known', used, rfl⟩ | ⟨m, here, ⟨same, -⟩, rfl⟩
  · exact .inr (.inl (needs_iff.2 (.inr ⟨out, leftAlone above⟩)))
  · rw [whole] at here
    rcases List.mem_append.1 here with before | atOrBehind
    · have smaller := earlier m before n (by simp)
      have ends : f.useEnd m j ≤ f.indexOf m + 1 := by
        unfold useEnd
        split <;> omega
      simp only at below
      omega
    · rcases List.mem_cons.1 atOrBehind with rfl | later
      · cases known.symm.trans known'
        refine .inr (.inr ⟨used, fun copy => ?_⟩)
        simp [useEnd, copy] at below
      · exact .inr (.inl (needs_of_use (leftAlone above) later ⟨j, known', used⟩))
  · simp only at above below
    rw [whole] at here
    rcases List.mem_append.1 here with before | atOrBehind
    · have := earlier m before n (by simp)
      omega
    · rcases List.mem_cons.1 atOrBehind with rfl | later
      · exact .inl same
      · have := behind m later
        omega

end Numbers

/-! ## Live ranges -/

/-- A value is live at the number of an instruction that uses it and is no copy. -/
theorem Dominated.use_range (dominated : f.Dominated) (formed : f.Formed) (numbered : f.Numbered)
    (listed : b ∈ f.layout) {i : Instr} (here : n ∈ (f.block b).instrs) (known : f.arena[n]? = some i)
    (used : (m : Value) ∈ i.args) (plain : i.op ≠ .copy) :
    ∃ r, ((m : Value), r) ∈ f.blockRanges f.liveIn b ∧ f.indexOf n ∈ r := by
  obtain ⟨first, last, head, tail⟩ := formed.bounds listed
  obtain ⟨before, rest, whole⟩ := List.append_of_mem here
  have starts := formed.liveFrom_le numbered listed head whole
    ((dominated.operand listed whole known used).imp id fun earlier => List.mem_append_left _ earlier)
  have ends : f.useEnd n i = f.indexOf n + 1 := if_neg plain
  rcases rangesBackward_use (numbered.reversed listed) (List.mem_reverse.2 here) known used with
    (out : (m : Value) ∈ f.liveOut f.liveIn b) | ⟨u, range, bound⟩
  · have high := numbered.le_last listed tail here
    exact ⟨_, blockRanges_out head tail out, starts, Int.lt_add_one_iff.2 high⟩
  · exact ⟨_, blockRanges_inner head tail range, starts, by simp only; omega⟩

/-- A value is live where it is computed, where it is needed later and where it is used; a copy
ends its operand. -/
theorem Dominated.liveAt_iff (dominated : f.Dominated) (formed : f.Formed) (numbered : f.Numbered)
    (injective : Set.InjOn f.indexOf {n | n ∈ f.instrs}) {i j : Instr} (value : m ∈ f.instrs)
    (computes : f.arena[m]? = some j) (hasValue : j.hasValue = true) (member : n ∈ f.instrs)
    (known : f.arena[n]? = some i) : f.LiveAt m (f.indexOf n) ↔
      n = m ∨ f.LiveAfter m n ∨ ((m : Value) ∈ i.args ∧ i.op ≠ .copy) := by
  obtain ⟨b, listed, here⟩ := List.mem_flatMap.1 member
  obtain ⟨before, rest, whole⟩ := List.append_of_mem here
  have isValue : ∃ k, f.Computes k m := ⟨m, rfl, by simp [computes, hasValue]⟩
  constructor
  · rintro ⟨r, range, inside⟩
    obtain ⟨c, listed', range⟩ := List.mem_flatMap.1 range
    -- the range is one of the block of the instruction, as numbers are given once
    obtain ⟨n', here', same⟩ := formed.range_within numbered listed' value range inside
    cases injective (List.mem_flatMap.2 ⟨c, listed', here'⟩) member same
    cases formed.unique here' here
    refine (formed.range_exact numbered listed whole known range inside).imp ?_ (.imp ?_ id)
    · exact fun own => (Int.ofNat.inj own).symm
    · exact (formed.liveAfter_iff isValue listed whole).2
  · rintro (rfl | live | ⟨used, plain⟩)
    · exact dominated.liveAt_own formed numbered member computes hasValue
    · exact dominated.liveAt_needed formed numbered listed whole
        ((formed.liveAfter_iff isValue listed whole).1 live)
    · obtain ⟨r, range, inside⟩ := dominated.use_range formed numbered listed here known used plain
      exact ⟨r, List.mem_flatMap.2 ⟨b, listed, range⟩, inside⟩

/-- The ranges of a value are the numbers of its instruction, of those behind which it is live,
and of those that use it, without copies. -/
structure Exact (f : Func) (iv : Intervals) : Prop where
  covers : ∀ {m j}, m ∈ f.instrs → f.arena[m]? = some j → j.hasValue = true →
    ∃ s, iv.set? m = some s ∧ s.ranges ≠ [] ∧ ∀ {n i}, n ∈ f.instrs → f.arena[n]? = some i →
      (s.covers (f.number.indexOf n) = true ↔
        n = m ∨ f.LiveAfter m n ∨ ((m : Value) ∈ i.args ∧ i.op ≠ .copy))
  /-- The source of a copy is live at the copy only if it is live behind it. -/
  copies : ∀ {n i v}, n ∈ f.instrs → f.arena[n]? = some i → i.op = .copy → v ∈ i.args →
    ∃ s, iv.set? v = some s ∧ (s.covers (f.number.indexOf n) = true ↔ f.LiveAfter v n)

/-- The intervals have exactly the numbers at which values are live. -/
theorem Dominated.exact (dominated : f.Dominated) (formed : f.Formed) :
    ∃ iv, f.intervals = (f.number, .ok iv) ∧ f.Exact iv := by
  have numbers := f.annotates_number
  have formed' := numbers.formed formed
  have dominated' := numbers.dominated dominated
  have ranges := dominated'.liveRanges_ok formed'
  obtain ⟨sound, single⟩ := liveRanges_sound ranges
  refine ⟨_, by rw [intervals, ranges], ?_⟩
  generalize (f.number.layout.flatMap _).foldl _ _ = iv at sound single
  have self := Intervals.Sound.representative_single single
  have exact : ∀ {m j}, m ∈ f.instrs → f.arena[m]? = some j → j.hasValue = true →
      ∃ s, iv.set? m = some s ∧ s.ranges ≠ [] ∧ ∀ {n i}, n ∈ f.instrs → f.arena[n]? = some i →
        (s.covers (f.number.indexOf n) = true ↔
          n = m ∨ f.LiveAfter m n ∨ ((m : Value) ∈ i.args ∧ i.op ≠ .copy)) := by
    intro m j value computes hasValue
    obtain ⟨j', computes', like⟩ := numbers.instr computes
    have hasValue' := like.hasValue.trans hasValue
    have holds : ∀ k, k ∈ iv.setOf m ↔ f.number.LiveAt m k := fun k => by
      rw [sound.holds]
      simp only [self, exists_eq_left]
    have own := (holds _).2 (dominated'.liveAt_own formed' formed.numbered value computes' hasValue')
    obtain ⟨s, known, inside⟩ := Intervals.lookup_of_mem_setOf own
    refine ⟨s, by rw [Intervals.set?, self, known], fun none => ?_, fun {n i} member known' => ?_⟩
    · obtain ⟨r, member, -⟩ := inside
      simp [none] at member
    · obtain ⟨i', known'', like'⟩ := numbers.instr known'
      have set : iv.setOf m = s := by simp [Intervals.setOf, known]
      rw [(sound.ordered known).covers_iff, ← set, holds, dominated'.liveAt_iff formed' formed.numbered
        formed.orderly.bijective.injOn value computes' hasValue' member known'', like'.args, like'.op]
      exact or_congr .rfl (or_congr ⟨numbers.symm.liveAfter, numbers.liveAfter⟩ .rfl)
  refine ⟨exact, fun {n i v} member known copy used => ?_⟩
  obtain ⟨b, listed, here⟩ := List.mem_flatMap.1 member
  obtain ⟨m, j, rfl, computes, hasValue⟩ := formed.values.operand n i known v used
  obtain ⟨s, set, -, covers⟩ := exact (dominated.operand_mem formed member known used) computes hasValue
  have other : n ≠ m := by
    rintro rfl
    exact dominated.other formed listed here known used
  refine ⟨s, set, (covers member known).trans ?_⟩
  simp [copy, other]

end Func

/-- Live ranges are exact: where dead code was removed and operands are computed on every way to
their use, the live ranges can be computed, and a value is live at the number of an instruction
just if the instruction computes it, if it is live behind the instruction, or if the instruction
uses it and is no copy. -/
theorem live_ranges_are_exact {f g : Func} (laid : f.Laid) (built : f.buildFlow = (g, none))
    (dominated : ∀ n ∈ g.instrs, ∀ i, g.arena[n]? = some i → ∀ m : Nat, (m : Value) ∈ i.args →
      g.Dominates m n) :
    ∃ iv, g.intervals = (g.number, .ok iv) ∧ g.Exact iv := by
  refine Func.Dominated.exact ⟨fun {b n m before behind i} listed whole known used => ?_⟩
    (laid.trims built).formed
  have member : n ∈ g.instrs := List.mem_flatMap.2 ⟨b, listed, by simp [whole]⟩
  exact (dominated n member i known m used).passed whole

/-- The live ranges of the second function of `sums`, around its loop and its copy, are exact. -/
theorem sums_ranges_are_exact : ∃ f g : Func, f.Laid ∧ f.buildFlow = (g, none) ∧
    g.layout.length = 4 ∧ (∃ n ∈ g.instrs, g.arena[n]?.map Instr.op = some .copy) ∧
    ∃ iv, g.intervals = (g.number, .ok iv) ∧ g.Exact iv := by
  have shape : ((sums.check.1.lower 2 "sums").toOption.bind (·.functions[1]?)).map (fun g =>
      (g.layout.length, g.instrs.find? fun n => g.arena[n]?.map Instr.op = some .copy)) =
        some (4, some 8) := by
    decide +kernel
  obtain ⟨g, found, shape⟩ := Option.map_eq_some_iff.1 shape
  obtain ⟨blocks, copy⟩ := Prod.mk.inj shape
  obtain ⟨m, known, second⟩ := Option.bind_eq_some_iff.1 found
  obtain ⟨source, -, ran⟩ :=
    Program.lower_mem (Except.toOption_eq_some.1 known) (List.mem_of_getElem? second)
  obtain ⟨c, ran', built⟩ := Lower.function_ok.1 ran
  have operands := (Lower.function_wellFormed ran).1.operands
  refine ⟨c.func, g, Lower.body_laid ran', built, blocks,
    ⟨8, List.mem_of_find?_eq_some copy, by simpa using List.find?_some copy⟩,
    live_ranges_are_exact (Lower.body_laid ran') built fun n member i known m used => ?_⟩
  obtain ⟨b, listed, here⟩ := List.mem_flatMap.1 member
  obtain ⟨m', -, same, -, -, -, passed⟩ := operands b listed n here i known m used
  cases Int.ofNat.inj same
  exact passed

end ImpCompiler
