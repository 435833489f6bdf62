import ImpCompiler.Proofs.Code.Exits
import ImpCompiler.Proofs.Code.Made

/-!
# Proofs.Code.Reachable — removing dead code keeps exactly what control reaches

Of a function that calls made, removing dead code keeps the blocks that control reaches, in
the order they had, cut and linked, and takes all other instructions out of their blocks
(`Func.Made.keeps`). It finds nothing left to do when it is done again
(`Func.Formed.buildFlow_eq`).
-/

namespace ImpCompiler

set_option autoImplicit false

namespace Func

variable {f g : Func}

/-! ## What is kept -/

theorem mem_instrs_iff {n : Nat} : n ∈ f.instrs ↔ ∃ b ∈ f.layout, n ∈ (f.block b).instrs :=
  List.mem_flatMap

/-- What is left of the function `f`: the blocks that control reaches, in the order they had,
each cut behind its first terminator and linked both ways. An instruction that is left is as
it was, and one that is not is in no block. -/
structure Keeps (f g : Func) : Prop where
  order : g.layout.Sublist f.layout
  left : ∀ b, b ∈ g.layout ↔ f.Reaches b
  cut : ∀ b ∈ g.layout, ∃ body n, f.exit? b = some n ∧ body ++ [n] <+: (f.block b).instrs ∧
    n ∉ body ∧ (g.block b).instrs = body ++ [n]
  succs : ∀ a ∈ g.layout, ∀ b, b ∈ (g.block a).succs ↔ b ∈ f.exits a
  preds : ∀ b ∈ g.layout, ∀ a, a ∈ (g.block b).preds ↔ a ∈ g.layout ∧ b ∈ (g.block a).succs
  once : ∀ b ∈ g.layout, (g.block b).succs.Nodup ∧ (g.block b).preds.Nodup
  arena : ∀ n : Nat, g.arena[n]? =
    f.arena[n]?.map fun i => if n ∈ g.instrs then i else { i with block := none }
  owner : ∀ (n : Nat) (i : Instr), g.arena[n]? = some i → (i.block = none ↔ n ∉ g.instrs)

namespace Trims

variable (trims : f.Trims g) {a b : Nat}

include trims

theorem cut_behind_exit (left : b ∈ g.layout) :
    ∃ body n, f.exit? b = some n ∧ body ++ [n] <+: (f.block b).instrs ∧ n ∉ body ∧
      (g.block b).instrs = body ++ [n] := by
  obtain ⟨body, n, whole, exit⟩ := trims.exit? left
  have once := trims.formed.once b
  rw [whole] at once
  exact ⟨body, n, exit, whole ▸ trims.instrs_prefix left,
    fun earlier => (List.nodup_append.1 once).2.2 n earlier n (by simp) rfl, whole⟩

theorem succs_eq (left : a ∈ g.layout) : (g.block a).succs = f.exits a :=
  (trims.formed.succs a left).trans (trims.targets_eq_exits left)

theorem preds_iff (left : b ∈ g.layout) :
    a ∈ (g.block b).preds ↔ a ∈ g.layout ∧ b ∈ (g.block a).succs := by
  rw [trims.formed.preds b left]
  simp only [incoming, List.mem_filter, List.contains_iff_mem]
  refine and_congr_right fun listed => ?_
  rw [trims.formed.succs a listed]

/-- No block is listed twice among the successors or the predecessors of another. -/
theorem links_nodup (left : b ∈ g.layout) : (g.block b).succs.Nodup ∧ (g.block b).preds.Nodup := by
  refine ⟨?_, ?_⟩
  · obtain ⟨_, _, i, -, -, targets, -⟩ := trims.formed.last left
    rw [trims.formed.succs b left, targets]
    exact targets_nodup i.op
  · rw [trims.formed.preds b left]
    exact trims.formed.distinct.filter _

end Trims

/-- An instruction of a block that is in no block that is left is detached: it was cut off,
or its block was dropped. -/
theorem Laid.left_detached (laid : f.Laid) (built : f.buildFlow = (g, none)) {b n : Nat}
    (member : n ∈ (f.block b).instrs) (gone : n ∉ g.instrs) :
    g.arena[n]? = f.arena[n]?.map fun i => { i with block := none } := by
  obtain ⟨reached, explored, rfl⟩ := buildFlow_ok laid built
  have listed : b ∈ f.strip.layout := laid.mem_layout.2 (lt_size_of_mem member)
  have kept : (f.strip.keepReached reached).arena[n]? = _ := detach_arena (f := f.strip) _ n
  have stripped : f.strip.arena[n]? = _ := detach_arena (f := f) _ n
  rw [link_arena, kept, stripped, Option.map_map]
  congr 1
  funext i
  simp only [Function.comp]
  by_cases cut : n ∈ (f.cut (f.block b).instrs).2
  · have removed : n ∈ f.layout.flatMap fun b => (f.cut (f.block b).instrs).2 :=
      List.mem_flatMap.2 ⟨b, listed, cut⟩
    simp only [if_pos removed]
    split <;> rfl
  · have stays : n ∈ (f.strip.block b).instrs := by
      rw [strip_instrs laid]
      rw [← f.cut_append (f.block b).instrs] at member
      exact (List.mem_append.1 member).resolve_right cut
    have dropped : b ∉ (f.strip.keepReached reached).layout := fun kept => gone <|
      mem_instrs_iff.2 ⟨b, kept, by rwa [link_instrs, keepReached_stays kept]⟩
    rw [if_pos]
    · split <;> rfl
    · refine List.mem_flatMap.2 ⟨b, List.mem_filter.2 ⟨listed, ?_⟩, stays⟩
      rw [keepReached_layout, List.mem_filter, not_and] at dropped
      rw [Bool.not_eq_true', Bool.eq_false_iff]
      exact dropped listed

/-- Removing dead code keeps what control reaches. -/
theorem Made.keeps (made : f.Made) (blocks : 0 < f.blocks.size) (built : f.buildFlow = (g, none)) :
    f.Keeps g := by
  have laid := made.laid blocks
  have trims := laid.trims built
  have placed := made.wellTyped.placed
  refine ⟨trims.layout, fun b => trims.mem_layout, fun b => trims.cut_behind_exit,
    fun a left b => by rw [trims.succs_eq left], fun b left a => trims.preds_iff left,
    fun b => trims.links_nodup, fun n => ?_, fun n i known => ?_⟩
  · by_cases left : n ∈ g.instrs
    · obtain ⟨b, -, member⟩ := mem_instrs_iff.1 left
      simp only [if_pos left, Option.map_id', trims.stays b n member]
    · simp only [if_neg left]
      cases known : f.arena[n]? with
      | none =>
        have code := trims.code n
        rw [known] at code
        simpa using code
      | some i =>
        obtain ⟨b, -, -, member⟩ := placed n i known
        rw [← known]
        exact laid.left_detached built member left
  · by_cases left : n ∈ g.instrs
    · obtain ⟨b, -, member⟩ := mem_instrs_iff.1 left
      obtain ⟨j, known', owner⟩ := trims.formed.owner b n member
      cases known.symm.trans known'
      simp [owner, left]
    · have before := trims.code n
      rw [known, Option.map_some, eq_comm, Option.map_eq_some_iff] at before
      obtain ⟨j, before, -⟩ := before
      obtain ⟨b, -, -, member⟩ := placed n j before
      have detached := laid.left_detached built member left
      rw [known, before] at detached
      cases detached
      simp [left]

/-! ## Doing it again -/

theorem detach_nil (f : Func) : f.detach [] = f := by
  have arena : f.arena.mapIdx (fun _ i => i) = f.arena := Array.ext (by simp) fun n _ _ => by simp
  simp [detach, mapArena, arena]

/-- A change of blocks that changes none. -/
theorem mapBlocks_eq {h : Nat → Block → Block} (same : ∀ b < f.blocks.size, h b (f.block b) = f.block b) :
    f.mapBlocks h = f := by
  have blocks : f.blocks.mapIdx h = f.blocks := by
    refine Array.ext (by simp) fun b inside inside' => ?_
    have at' := same b inside'
    rw [block_eq_getElem inside'] at at'
    rw [Array.getElem_mapIdx, at']
  rw [mapBlocks, blocks]

namespace Formed

variable (formed : f.Formed)

include formed

theorem closedAt {b : Nat} (listed : b ∈ f.layout) : f.ClosedAt f.layout b := by
  obtain ⟨body, n, t, whole, known, isEnd, within, -⟩ := formed.ends b listed
  exact ⟨t, by simp [terminator?, whole, known, Instr.isTerminator, isEnd], within⟩

theorem cut_eq {b : Nat} (listed : b ∈ f.layout) :
    f.cut (f.block b).instrs = ((f.block b).instrs, []) := by
  obtain ⟨body, n, t, whole, known, isEnd, -, others⟩ := formed.ends b listed
  rw [whole]
  exact cut_at (by simp [isTerminatorAt, known, Instr.isTerminator, isEnd]) others

/-- There is nothing behind a terminator. -/
theorem strip_eq : f.strip = f := by
  have removed : (f.layout.flatMap fun b => (f.cut (f.block b).instrs).2) = [] :=
    List.flatMap_eq_nil_iff.2 fun b listed => by rw [formed.cut_eq listed]
  rw [strip, removed, detach_nil]
  refine mapBlocks_eq fun b _ => ?_
  split
  · rename_i listed
    rw [formed.cut_eq (by simpa using listed)]
  · rfl

/-- Every block is explored. -/
theorem explore_eq (dropped : ∀ b, b ∉ f.layout → (f.block b).instrs = []) :
    ∃ reached, f.explore f.blocks.size [0] [0] = .ok reached ∧ ∀ b ∈ f.layout, b ∈ reached := by
  have entry : 0 ∈ f.layout := List.mem_of_mem_head? formed.first
  have inside : ∀ b t, f.terminator? b = some t → ∀ c ∈ t.op.targets, c < f.blocks.size := by
    intro b t ends c goes
    by_cases listed : b ∈ f.layout
    · exact formed.layout_lt (formed.mem_of_goes listed (by rwa [targets, ends]))
    · simp [terminator?, dropped b listed] at ends
  cases explored : f.explore f.blocks.size [0] [0] with
  | error c =>
    obtain ⟨listed, none⟩ := explore_error explored (P := (· ∈ f.layout)) (by simpa using entry)
      fun b listed c goes => formed.mem_of_goes listed goes
    obtain ⟨t, ends, -⟩ := formed.closedAt listed
    rw [none] at ends
    cases ends
  | ok reached =>
    have closed := explore_closed [] explored (by simp) (by simpa using formed.layout_lt entry)
      (.refl _) (by simp) (by simp) inside
    have start := (explore_sound explored (P := fun _ => True) (by simp) (List.Subset.refl _)
      (by simp)).1
    refine ⟨reached, rfl, fun b listed => ?_⟩
    obtain ⟨passed, route⟩ := formed.reached b listed
    clear listed
    induction route with
    | entry first =>
      rw [formed.first] at first
      cases first
      exact start (by simp)
    | step _ goes ih =>
      obtain ⟨t, ends, within⟩ := closed _ ih
      rw [targets, ends] at goes
      exact within _ goes

theorem keepReached_eq {reached : List Nat} (all : ∀ b ∈ f.layout, b ∈ reached) :
    f.keepReached reached = f := by
  have kept : ∀ b ∈ f.layout, (reached.contains b && !(f.block b).instrs.isEmpty) = true := by
    intro b listed
    obtain ⟨body, n, _, whole, -⟩ := formed.ends b listed
    simp [all b listed, whole]
  have none : (f.layout.filter fun b => !(reached.contains b && !(f.block b).instrs.isEmpty)) = [] :=
    List.filter_eq_nil_iff.2 fun b listed => by simp only [kept b listed, Bool.not_true]; decide
  have layout : (f.layout.filter fun b => reached.contains b && !(f.block b).instrs.isEmpty) = f.layout :=
    List.filter_eq_self.2 kept
  have same : f.mapBlocks (fun b k => if ([] : List Nat).contains b then { k with instrs := [] } else k) = f :=
    mapBlocks_eq fun b _ => rfl
  simp only [keepReached, none, List.flatMap_nil, detach_nil, same, layout]

theorem link_eq (order : f.order = []) : f.link = f := by
  have incoming : ∀ b, b ∉ f.layout → f.incoming b = [] := by
    refine fun b gone => List.filter_eq_nil_iff.2 fun p listed goes => gone ?_
    exact formed.mem_of_goes listed (by simpa using goes)
  have same := mapBlocks_eq (f := f) (h := fun b k =>
      if f.layout.contains b then { k with preds := f.incoming b, succs := f.targets b }
      else { k with preds := k.preds ++ f.incoming b }) fun b _ => by
    by_cases listed : b ∈ f.layout
    · simp [listed, ← formed.preds b listed, ← formed.succs b listed]
    · simp [listed, incoming b listed]
  simp only [link, same, ← order]

/-- A function without dead code is left as it is. -/
theorem buildFlow_eq (dropped : ∀ b, b ∉ f.layout → (f.block b).instrs = []) (order : f.order = []) :
    f.buildFlow = (f, none) := by
  obtain ⟨rest, layout⟩ := List.head?_eq_some_iff.1 formed.first
  have entry : f.entry = .ok 0 := by simp [Func.entry, layout]
  obtain ⟨reached, explored, all⟩ := formed.explore_eq dropped
  simp only [buildFlow, formed.strip_eq, entry, explored, formed.keepReached_eq all,
    formed.link_eq order]

end Formed

/-- Removing dead code from a function that calls made fails where control reaches a block
without a terminator, and keeps exactly the code that control reaches otherwise. Done again it
changes nothing. -/
theorem dead_code_is_what_control_does_not_reach (f : Func) (made : f.Made)
    (blocks : 0 < f.blocks.size) :
    f.entry.toOption = some 0 ∧
      (f.buildFlow.2 ≠ none ↔ ∃ b, f.Reaches b ∧ f.exit? b = none) ∧
      (∀ e, f.buildFlow.2 = some e →
        ∃ b, f.Reaches b ∧ f.exit? b = none ∧ e = .notTerminated f.name (f.label b)) ∧
      (f.buildFlow.2 = none →
        f.Keeps f.buildFlow.1 ∧ f.buildFlow.1.buildFlow = (f.buildFlow.1, none)) := by
  have laid := made.laid blocks
  obtain ⟨rest, layout⟩ := laid.head
  refine ⟨by rw [entry, layout]; rfl, laid.buildFlow_fails_iff, fun e => laid.buildFlow_error,
    fun ended => ?_⟩
  have built : f.buildFlow = (f.buildFlow.1, none) := Prod.ext rfl ended
  have trims := laid.trims built
  exact ⟨made.keeps blocks built, trims.formed.buildFlow_eq trims.dropped trims.order⟩

/-- A function whose entry has three terminators, the first with one target twice, and whose
block 2 only goes to others. -/
def litteredCalls : List Call :=
  [.function "littered" .void [], .block 0 0, .block 0 1, .block 0 2, .block 0 3,
    .instr 0 0 (.bool true), .instr 0 0 (.condBranch (.own 0) (.own 3) (.own 3)),
    .instr 0 0 (.branch (.own 1)), .instr 0 0 (.ret none), .instr 0 2 (.branch (.own 3)),
    .instr 0 3 (.bool false), .instr 0 3 (.condBranch (.own 5) (.own 3) (.own 0)), .instr 0 3 .unreachable]

theorem littered_is_cleared : ∃ f : Func, f ∈ ((Module.empty "m").after litteredCalls).functions ∧
    f.buildFlow.2 = none ∧ f.buildFlow.1.layout = [0, 3] ∧ f.buildFlow.1.instrs = [0, 1, 5, 6] ∧
      f.Keeps f.buildFlow.1 ∧ f.buildFlow.1.buildFlow = (f.buildFlow.1, none) := by
  have facts : ((Module.empty "m").after litteredCalls).functions.head?.map (fun f =>
      (f.buildFlow.2.isNone, decide (0 < f.blocks.size), f.buildFlow.1.layout, f.buildFlow.1.instrs)) =
      some (true, true, [0, 3], [0, 1, 5, 6]) := by decide
  obtain ⟨f, first, facts⟩ := Option.map_eq_some_iff.1 facts
  simp only [Prod.mk.injEq, decide_eq_true_eq, Option.isNone_iff_eq_none] at facts
  obtain ⟨ended, blocks, layout, instrs⟩ := facts
  have member := List.mem_of_mem_head? first
  have kept := (dead_code_is_what_control_does_not_reach f ⟨"m", litteredCalls, member⟩ blocks).2.2.2 ended
  exact ⟨f, member, ended, layout, instrs, kept⟩

end Func

end ImpCompiler
