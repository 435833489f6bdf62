import ImpCompiler.Proofs.Code.Made

/-!
# Proofs.Code.Housed — instructions are in the blocks that they name

An instruction that names a block of the layout is in it (`Func.Housed`). Whatever is done to a
function keeps that: calls that make more of it (`Func.Housed.after`), removing dead code, whether
it succeeds or not, as an instruction that is taken out of its block names none from then on
(`Func.Housed.buildFlow`), numbers and places for its instructions (`Func.Housed.annotates`), and
other operands (`Func.Housed.setArgs`). In the same way functions that calls make have all
instructions that name a block in their layout, and removing dead code keeps that
(`Func.Listed.buildFlow`).
-/

namespace ImpCompiler

set_option autoImplicit false

namespace Func

variable {f g : Func}

/-- A function whose instructions are in the blocks that they name, if these are in the layout,
and whose copies have a source. -/
structure Housed (f : Func) : Prop where
  orderly : f.Orderly
  inside : ∀ b ∈ f.layout, b < f.blocks.size
  named : ∀ {n b i}, f.arena[n]? = some i → i.block = some b →
    b < f.blocks.size ∧ (b ∈ f.layout → n ∈ (f.block b).instrs)
  sources : ∀ n ∈ f.instrs, ∀ i, f.arena[n]? = some i → i.op = .copy → i.args ≠ []

/-- An instruction that names a block was not taken out of it. -/
theorem detach_named {ns : List Nat} {n b : Nat} {i : Instr} (known : (f.detach ns).arena[n]? = some i)
    (named : i.block = some b) : n ∉ ns ∧ f.arena[n]? = some i := by
  rw [detach_arena] at known
  obtain ⟨j, known', same⟩ := Option.map_eq_some_iff.1 known
  split at same
  · cases same
    cases named
  · rename_i stays
    cases same
    exact ⟨by simpa using stays, known'⟩

theorem strip_cut {b : Nat} (listed : b ∈ f.layout) :
    (f.strip.block b).instrs = (f.cut (f.block b).instrs).1 := by
  have stripped := mapBlocks_instrs (f := f.detach (f.layout.flatMap fun b => (f.cut (f.block b).instrs).2))
    (h := fun b k => if f.layout.contains b then { k with instrs := (f.cut k.instrs).1 } else k)
    (k := fun b ns => if f.layout.contains b then (f.cut ns).1 else ns)
    (fun b x => by split <;> rfl) (fun b => by simp [cut]) b
  rw [if_pos (by simpa using listed)] at stripped
  exact stripped

/-- What is not removed from a block stays in it. -/
theorem mem_strip {b n : Nat} (listed : b ∈ f.layout) (here : n ∈ (f.block b).instrs)
    (stays : n ∉ f.layout.flatMap fun b => (f.cut (f.block b).instrs).2) :
    n ∈ (f.strip.block b).instrs := by
  rw [← f.cut_append (f.block b).instrs] at here
  rw [strip_cut listed]
  refine (List.mem_append.1 here).resolve_right fun removed => stays ?_
  exact List.mem_flatMap.2 ⟨b, listed, removed⟩

namespace Housed

theorem empty (name : Text) (ret : DataType) (params : List DataType) :
    (Func.empty name ret params).Housed where
  orderly := {
    distinct := .nil
    once := .nil
    known := fun n member => by cases member
    linked := fun b listed => by cases listed }
  inside b listed := by cases listed
  named known := by simp [Func.empty] at known
  sources n member := by cases member

variable (housed : f.Housed)

include housed

/-! ## More of a function -/

theorem addBlock (kind : LabelKind) : (f.addBlock kind).1.Housed := by
  have layout : (f.addBlock kind).1.layout = f.layout ++ [f.blocks.size] := rfl
  have instrs : (f.addBlock kind).1.instrs = f.instrs := by
    simp only [Func.instrs, layout, List.flatMap_append, addBlock_block_instrs, List.flatMap_cons,
      List.flatMap_nil, instrs_of_size_le (Nat.le_refl _), List.append_nil]
  refine ⟨⟨?_, instrs ▸ housed.orderly.once, instrs ▸ housed.orderly.known, fun b listed => ?_⟩,
    fun b listed => ?_, fun {n b i} known named => ?_, instrs ▸ housed.sources⟩
  · refine List.nodup_append.2 ⟨housed.orderly.distinct, List.nodup_singleton _, ?_⟩
    intro b listed c new
    rw [List.mem_singleton.1 new]
    exact Nat.ne_of_lt (housed.inside b listed)
  · rw [layout, List.mem_append, List.mem_singleton] at listed
    rcases listed with listed | rfl
    · rw [addBlock_block_ne f kind (Nat.ne_of_lt (housed.inside b listed)), layout]
      exact fun p comes => List.mem_append_left _ (housed.orderly.linked b listed comes)
    · rw [block_eq_getElem (by simp)]
      simp [Func.addBlock, Func.pushBlock]
  · rw [layout, List.mem_append, List.mem_singleton] at listed
    rw [addBlock_size]
    rcases listed with listed | rfl
    · exact Nat.lt_succ_of_lt (housed.inside b listed)
    · exact Nat.lt_succ_self _
  · obtain ⟨inside, member⟩ := housed.named known named
    rw [addBlock_size, addBlock_block_instrs]
    refine ⟨Nat.lt_succ_of_lt inside, fun listed => member ?_⟩
    rw [layout, List.mem_append, List.mem_singleton] at listed
    exact listed.resolve_right (Nat.ne_of_lt inside)

/-- One more instruction has a place in one block. -/
theorem oneMore {b : Nat} {i : Instr} (more : f.OneMore b i g)
    (rule : f.Rule f.arena.size i.op i.type i.args) : g.Housed := by
  have grows := more.grows
  have layout : g.layout = f.layout := by rw [more.rest]
  have old : ∀ c ∈ f.layout, ∀ n ∈ (f.block c).instrs, n < f.arena.size := fun c listed n here =>
    housed.orderly.known n (List.mem_flatMap.2 ⟨c, listed, here⟩)
  obtain ⟨once, apart⟩ := List.nodup_flatMap.1 housed.orderly.once
  refine ⟨⟨layout ▸ housed.orderly.distinct, List.nodup_flatMap.2 ⟨fun c listed => ?_, ?_⟩,
    fun n member => ?_, fun c listed => ?_⟩, fun c listed => ?_, fun {n c j} known named => ?_,
    fun n member j known copy => ?_⟩
  · rw [layout] at listed
    by_cases here : c = b
    · subst here
      rw [more.block]
      refine List.nodup_append.2 ⟨once c listed, List.nodup_singleton _, fun n member m new => ?_⟩
      rw [List.mem_singleton.1 new]
      exact Nat.ne_of_lt (old c listed n member)
    · rw [more.others c here]
      exact once c listed
  · -- the new instruction is in one block, and in none of the others
    rw [layout]
    refine (apart.and housed.orderly.distinct).imp_of_mem
      fun {c d} left right ⟨apart, other⟩ n here there => ?_
    rcases more.listed_cases here with here | ⟨rfl, rfl⟩
    · rcases more.listed_cases there with there | ⟨rfl, rfl⟩
      · exact apart here there
      · exact Nat.lt_irrefl _ (old c left _ here)
    · rcases more.listed_cases there with there | ⟨same, -⟩
      · exact Nat.lt_irrefl _ (old d right _ there)
      · exact other same.symm
  · obtain ⟨c, listed, here⟩ := List.mem_flatMap.1 member
    rw [layout] at listed
    rw [more.arena, Array.size_push]
    rcases more.listed_cases here with here | ⟨rfl, rfl⟩
    · exact Nat.lt_succ_of_lt (old c listed n here)
    · exact Nat.lt_succ_self _
  · rw [layout] at listed ⊢
    by_cases here : c = b
    · subst here
      rw [more.block]
      exact housed.orderly.linked c listed
    · rw [more.others c here]
      exact housed.orderly.linked c listed
  · rw [more.size]
    exact housed.inside c (layout ▸ listed)
  · rw [more.size, layout]
    rcases more.instr_cases known with known | ⟨rfl, rfl⟩
    · obtain ⟨inside, member⟩ := housed.named known named
      exact ⟨inside, fun listed => (grows.instrs c).subset (member listed)⟩
    · cases more.named.symm.trans named
      refine ⟨more.inside, fun _ => ?_⟩
      rw [more.block]
      exact List.mem_append_right _ (List.mem_singleton.2 rfl)
  · obtain ⟨c, listed, here⟩ := List.mem_flatMap.1 member
    rw [layout] at listed
    rcases more.instr_cases known with known | ⟨rfl, rfl⟩
    · refine housed.sources n (List.mem_flatMap.2 ⟨c, listed, ?_⟩) j known copy
      refine (more.listed_cases here).resolve_right ?_
      rintro ⟨-, rfl⟩
      simp at known
    · rw [copy] at rule
      exact rule.source

omit housed in
/-- Calls keep the instructions of all functions in the blocks that they name. -/
theorem after {m : Module} (calls : List Call) (all : ∀ f ∈ m.functions, f.Housed) :
    ∀ f ∈ (m.after calls).functions, f.Housed := by
  have kept : Module.Kept Housed := {
    empty := empty
    block := fun kind before => before.addBlock kind
    slot := fun _ before => ⟨⟨before.orderly.distinct, before.orderly.once, before.orderly.known,
      before.orderly.linked⟩, before.inside, before.named, before.sources⟩
    instr := fun more rule before => before.oneMore more rule }
  exact kept.after calls all

/-! ## Less of a function -/

/-- Blocks and instructions can be left out, as long as no instruction that is left out names a
block that is not. -/
theorem shrink (layout : g.layout.Sublist f.layout)
    (instrs : ∀ b ∈ g.layout, (g.block b).instrs.Sublist (f.block b).instrs)
    (code : ∀ n : Nat, g.arena[n]?.map Instr.code = f.arena[n]?.map Instr.code)
    (linked : ∀ b ∈ g.layout, (g.block b).preds ⊆ g.layout)
    (size : g.blocks.size = f.blocks.size)
    (named : ∀ {n b i}, g.arena[n]? = some i → i.block = some b →
      (∃ j, f.arena[n]? = some j ∧ j.block = some b) ∧ (b ∈ g.layout → n ∈ (g.block b).instrs)) :
    g.Housed := by
  have inside : ∀ n ∈ g.instrs, n ∈ f.instrs := by
    intro n member
    obtain ⟨b, listed, here⟩ := List.mem_flatMap.1 member
    exact List.mem_flatMap.2 ⟨b, layout.subset listed, (instrs b listed).subset here⟩
  have before : ∀ {n : Nat} {i : Instr}, g.arena[n]? = some i →
      ∃ j, f.arena[n]? = some j ∧ j.code = i.code := by
    intro n i known
    have same := code n
    rwa [known, Option.map_some, eq_comm, Option.map_eq_some_iff] at same
  refine ⟨⟨housed.orderly.distinct.sublist layout, ?_, fun n member => ?_, linked⟩,
    fun b listed => size ▸ housed.inside b (layout.subset listed),
    fun known block => ?_,
    fun n member i known copy => ?_⟩
  · obtain ⟨once, apart⟩ := List.nodup_flatMap.1 housed.orderly.once
    refine List.nodup_flatMap.2
      ⟨fun b listed => (once b (layout.subset listed)).sublist (instrs b listed), ?_⟩
    refine (apart.sublist layout).imp_of_mem fun {b c} left right apart n here there => ?_
    exact apart ((instrs b left).subset here) ((instrs c right).subset there)
  · have known := Array.getElem?_eq_getElem (housed.orderly.known n (inside n member))
    have same := code n
    rw [known, Option.map_some, Option.map_eq_some_iff] at same
    obtain ⟨i, known', -⟩ := same
    exact (Array.getElem?_eq_some_iff.1 known').1
  · obtain ⟨⟨j, known', block'⟩, member⟩ := named known block
    exact ⟨size ▸ (housed.named known' block').1, member⟩
  · obtain ⟨j, known', same⟩ := before known
    have args : j.args = i.args := congrArg (fun c => c.2.2) same
    have op : j.op = i.op := congrArg Prod.fst same
    exact args ▸ housed.sources n (inside n member) j known' (op.trans copy)

theorem strip : f.strip.Housed := by
  have preds : ∀ b, (f.strip.block b).preds = (f.block b).preds := by
    intro b
    by_cases inside : b < f.blocks.size
    · have stripped := mapBlocks_block (f := f.detach (f.layout.flatMap fun b => (f.cut (f.block b).instrs).2))
        (h := fun b k => if f.layout.contains b then { k with instrs := (f.cut k.instrs).1 } else k) inside
      rw [Func.strip, stripped]
      split <;> rfl
    · rw [block_of_size_le (f := f) (by simpa using inside),
        block_of_size_le (f := f.strip) (by simpa using inside)]
  refine housed.shrink (List.Sublist.refl _) (fun b listed => ?_) strip_code
    (fun b listed => preds b ▸ housed.orderly.linked b listed) (strip_size f) fun {n b i} known named => ?_
  · rw [strip_cut (f := f) listed]
    exact (List.prefix_iff_exists_append_eq.2 ⟨_, f.cut_append _⟩).sublist
  · obtain ⟨stays, known'⟩ := detach_named (f := f) known named
    exact ⟨⟨_, known', named⟩, fun (listed : b ∈ f.layout) =>
      mem_strip listed ((housed.named known' named).2 listed) stays⟩

theorem keepReached_link (reached : List Nat) : (f.keepReached reached).link.Housed := by
  have kept : ∀ b ∈ (f.keepReached reached).link.layout,
      ((f.keepReached reached).link.block b).instrs = (f.block b).instrs := by
    intro b listed
    rw [link_instrs, keepReached_stays listed]
  refine housed.shrink List.filter_sublist (fun b listed => by rw [kept b listed])
    (keepReached_code reached) (fun b listed => ?_) (keepReached_size f reached ▸ link_size _)
    fun {n b i} known named => ?_
  · have some := (mem_keepReached.1 listed).2.2
    have inside : b < (f.keepReached reached).blocks.size := by
      obtain ⟨n, rest, whole⟩ := List.exists_cons_of_ne_nil some
      rw [keepReached_size]
      exact lt_size_of_mem (n := n) (by simp [whole])
    have listed : b ∈ (f.keepReached reached).layout := listed
    rw [(link_block listed inside).1]
    exact List.filter_subset_self _
  · obtain ⟨-, known'⟩ := detach_named (f := f) known named
    refine ⟨⟨_, known', named⟩, fun listed => ?_⟩
    rw [kept b listed]
    exact (housed.named known' named).2 (mem_keepReached.1 listed).1

/-- Removing dead code takes instructions out of the blocks that they name, whether it succeeds
or not. -/
theorem buildFlow : f.buildFlow.1.Housed := by
  unfold Func.buildFlow
  dsimp only
  split
  · exact housed.strip
  · split
    · exact housed.strip
    · exact housed.strip.keepReached_link _

/-! ## The same function -/

/-- Numbers and places of instructions make no difference. -/
theorem annotates (same : f.Annotates g) : g.Housed := by
  refine housed.shrink (same.layout ▸ List.Sublist.refl _) (fun b _ => by rw [same.block]) same.code
    (fun b listed => ?_) (by rw [same.blocks]) fun {n b i} known named => ?_
  · rw [same.layout] at listed ⊢
    rw [same.block]
    exact housed.orderly.linked b listed
  · obtain ⟨j, known', like⟩ := same.symm.instr known
    have named' := like.block.trans named
    refine ⟨⟨j, known', named'⟩, fun listed => ?_⟩
    rw [same.block]
    exact (housed.named known' named').2 (same.layout ▸ listed)

/-- What an instruction uses makes no difference, as long as a copy has a source. -/
theorem setArgs {n : Nat} {args : List Value}
    (source : args = [] → ∀ i, f.arena[n]? = some i → i.op ≠ .copy) : (f.setArgs n args).Housed := by
  have before : ∀ {m : Nat} {i : Instr}, (f.setArgs n args).arena[m]? = some i →
      ∃ j, f.arena[m]? = some j ∧ i.op = j.op ∧ i.block = j.block ∧
        i.args = if m = n then args else j.args := by
    intro m i known
    simp only [Func.setArgs, Array.getElem?_modify] at known
    split at known
    · rename_i here
      obtain ⟨j, known', rfl⟩ := Option.map_eq_some_iff.1 known
      exact ⟨j, known', rfl, rfl, by simp [here]⟩
    · rename_i other
      exact ⟨i, known, rfl, rfl, by rw [if_neg (Ne.symm other)]⟩
  refine ⟨⟨housed.orderly.distinct, housed.orderly.once, fun m member => ?_, housed.orderly.linked⟩,
    housed.inside, fun {m b i} known named => ?_, fun m member i known copy => ?_⟩
  · simpa [Func.setArgs] using housed.orderly.known m member
  · obtain ⟨j, known', -, block, -⟩ := before known
    exact housed.named known' (block ▸ named)
  · obtain ⟨j, known', op, -, same⟩ := before known
    rw [same]
    split
    · rename_i here
      subst here
      exact fun none => source none j known' (op ▸ copy)
    · exact housed.sources m member j known' (op ▸ copy)

end Housed

/-! ## The instructions of the layout -/

/-- The instructions that name a block are those of the layout. -/
def Listed (f : Func) : Prop :=
  ∀ (n b : Nat) (i : Instr), f.arena[n]? = some i → i.block = some b → n ∈ f.instrs

theorem Made.listed (made : f.Made) : f.Listed := by
  intro n _ i known _
  obtain ⟨b, -, inside, here⟩ := made.wellTyped.placed n i known
  exact List.mem_flatMap.2 ⟨b, made.layout.1 ▸ List.mem_range.2 inside, here⟩

theorem Annotates.listed (same : f.Annotates g) (listed : f.Listed) : g.Listed := by
  intro n b i known named
  obtain ⟨j, known', like⟩ := same.symm.instr known
  rw [same.instrs]
  exact listed n b j known' (like.block.trans named)

namespace Listed

variable (listed : f.Listed)

include listed

theorem strip : f.strip.Listed := by
  intro n b i known named
  obtain ⟨stays, known'⟩ := detach_named (f := f) known named
  obtain ⟨c, inside, here⟩ := List.mem_flatMap.1 (listed n b i known' named)
  exact List.mem_flatMap.2 ⟨c, inside, mem_strip inside here stays⟩

/-- The instructions of a block that is dropped name none. -/
theorem keepReached_link (reached : List Nat) : (f.keepReached reached).link.Listed := by
  intro n b i known named
  obtain ⟨stays, known'⟩ := detach_named (f := f) known named
  obtain ⟨c, inside, here⟩ := List.mem_flatMap.1 (listed n b i known' named)
  have kept : c ∈ (f.keepReached reached).layout := by
    refine mem_keepReached.2 ⟨inside, ?_, List.ne_nil_of_mem here⟩
    by_contra dropped
    refine stays (List.mem_flatMap.2 ⟨c, List.mem_filter.2 ⟨inside, ?_⟩, here⟩)
    simp [dropped]
  refine List.mem_flatMap.2 ⟨c, kept, ?_⟩
  rwa [link_instrs, keepReached_stays kept]

theorem buildFlow : f.buildFlow.1.Listed := by
  unfold Func.buildFlow
  dsimp only
  split
  · exact listed.strip
  · split
    · exact listed.strip
    · exact listed.strip.keepReached_link _

end Listed

end Func

end ImpCompiler
