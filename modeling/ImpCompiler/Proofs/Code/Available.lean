import ImpCompiler.Proofs.Code.Flow

/-!
# Proofs.Code.Available — values and slots are there where they are used

To say that values are computed and slots are stored to before they are used, whichever
way control takes, it is enough to give for every block a set of facts that hold when
control gets to it (`Guarded`): instructions use what is in the set of their block or
what was provided before them in the block, and a branch goes only to blocks whose sets
have nothing that is not there at the branch. Then what an instruction uses was provided
on every way to the instruction (`Guarded.on_path`); of values alone `Dominated` says so.
-/

namespace ImpCompiler

set_option autoImplicit false

/-- What instructions provide for others: their value, or a slot that holds something. -/
inductive Fact where
  | value (n : Nat)
  | slot (s : Nat)

def Instr.Uses (i : Instr) : Fact → Prop
  | .value m => (m : Value) ∈ i.args
  | .slot s => i.op = .load s

namespace Func

def LoadsFrom (f : Func) (n s : Nat) : Prop := ∃ i, f.arena[n]? = some i ∧ i.op = .load s

def StoresTo (f : Func) (n s : Nat) : Prop := ∃ i, f.arena[n]? = some i ∧ i.op = .store s

def Provides (f : Func) (n : Nat) : Fact → Prop
  | .value m => m = n
  | .slot s => f.StoresTo n s

def Provide (f : Func) (ns : List Nat) (x : Fact) : Prop := ∃ n ∈ ns, f.Provides n x

/-- The instructions that control passed on a way from the entry to instruction `n`. -/
inductive Path (f : Func) : List Nat → Nat → Prop
  | intro {passed before behind : List Nat} {b n : Nat} (route : f.Route passed b)
      (whole : (f.block b).instrs = before ++ n :: behind) :
      Path f (passed.flatMap (fun c => (f.block c).instrs) ++ before) n

/-- Code in which the facts of `A b` hold when control gets to block `b`, and which uses
only what is there. -/
structure Guarded (f : Func) (A : Nat → Fact → Prop) : Prop where
  entry : ∀ x, ¬ A 0 x
  uses : ∀ {b n : Nat} {before behind : List Nat} {i : Instr},
    (f.block b).instrs = before ++ n :: behind → f.arena[n]? = some i →
    ∀ x, i.Uses x → A b x ∨ f.Provide before x
  goes : ∀ {b n : Nat} {before behind : List Nat} {i : Instr},
    (f.block b).instrs = before ++ n :: behind → f.arena[n]? = some i → ∀ t ∈ i.op.targets,
    ∀ x, A t x → A b x ∨ f.Provide before x

variable {f g : Func} {A : Nat → Fact → Prop} {b : Nat} {x : Fact} {i : Instr}
  {ns before behind : List Nat}

@[simp] theorem provide_value {m : Nat} : f.Provide ns (.value m) ↔ m ∈ ns := by
  simp [Provide, Provides]

theorem Provide.mono {ns ms : List Nat} (given : f.Provide ns x) (within : ns ⊆ ms) :
    f.Provide ms x := by
  obtain ⟨n, member, provides⟩ := given
  exact ⟨n, within member, provides⟩

/-- What instructions provide depends on what they do. -/
theorem Provide.congr (given : f.Provide ns x)
    (same : ∀ n ∈ ns, ∀ i, f.arena[n]? = some i → ∃ j, g.arena[n]? = some j ∧ j.op = i.op) :
    g.Provide ns x := by
  obtain ⟨n, member, provides⟩ := given
  refine ⟨n, member, ?_⟩
  cases x with
  | value m => exact provides
  | slot s =>
    obtain ⟨i, known, stores⟩ := provides
    obtain ⟨j, known', op⟩ := same n member i known
    exact ⟨j, known', op.trans stores⟩

theorem Provide.grows (given : f.Provide ns x) (grows : f.Grows g) : g.Provide ns x :=
  given.congr fun _ _ i known => ⟨i, grows.instr known, rfl⟩

/-- A value that an instruction uses is there. -/
theorem Guarded.operand (guarded : f.Guarded A) {b n m : Nat}
    (whole : (f.block b).instrs = before ++ n :: behind) (known : f.arena[n]? = some i)
    (used : (m : Value) ∈ i.args) : A b (.value m) ∨ m ∈ before :=
  (guarded.uses whole known (.value m) used).imp id provide_value.1

/-- Control leaves a block with its last instruction and goes to blocks of the layout. -/
theorem Formed.last (formed : f.Formed) (listed : b ∈ f.layout) :
    ∃ body n i, (f.block b).instrs = body ++ [n] ∧ f.arena[n]? = some i ∧
      f.targets b = i.op.targets ∧ ∀ t ∈ f.targets b, t ∈ f.layout := by
  obtain ⟨body, n, i, whole, known, isEnd, within, -⟩ := formed.ends b listed
  have ends : f.terminator? b = some i := by
    simp [terminator?, whole, known, Instr.isTerminator, isEnd]
  have targets : f.targets b = i.op.targets := by simp only [targets, ends]
  exact ⟨body, n, i, whole, known, targets, targets ▸ within⟩

theorem Formed.mem_of_goes (formed : f.Formed) {b c : Nat} (listed : b ∈ f.layout)
    (goes : c ∈ f.targets b) : c ∈ f.layout := by
  obtain ⟨_, _, _, -, -, -, within⟩ := formed.last listed
  exact within c goes

theorem Formed.layout_lt (formed : f.Formed) (listed : b ∈ f.layout) : b < f.blocks.size := by
  obtain ⟨body, n, i, whole, -⟩ := formed.ends b listed
  exact lt_size_of_mem (n := n) (by simp [whole])

theorem Route.listed {passed : List Nat} (route : f.Route passed b) (formed : f.Formed) :
    b ∈ f.layout := by
  induction route with
  | entry first => exact List.mem_of_mem_head? first
  | step _ goes ih =>
    obtain ⟨_, _, _, -, -, -, within⟩ := formed.last ih
    exact within _ goes

/-- A way only passes blocks of the layout. -/
theorem Route.passed_listed {passed : List Nat} {b c : Nat} (route : f.Route passed b)
    (formed : f.Formed) (member : c ∈ passed) : c ∈ f.layout := by
  induction route with
  | entry => cases member
  | step route _ ih =>
    rcases List.mem_append.1 member with earlier | last
    · exact ih earlier
    · cases List.mem_singleton.1 last
      exact route.listed formed

/-- What is there when control gets to a block was provided on the way. -/
theorem Guarded.on_route (guarded : f.Guarded A) (formed : f.Formed) {passed : List Nat}
    (route : f.Route passed b) (there : A b x) : ∃ c ∈ passed, f.Provide (f.block c).instrs x := by
  induction route with
  | @entry b first =>
    rw [formed.first] at first
    cases first
    exact absurd there (guarded.entry x)
  | @step passed b c route goes ih =>
    obtain ⟨body, n, i, whole, known, targets, -⟩ := formed.last (route.listed formed)
    rw [targets] at goes
    rcases guarded.goes whole known c goes x there with before | here
    · obtain ⟨d, member, given⟩ := ih before
      exact ⟨d, List.mem_append_left _ member, given⟩
    · exact ⟨b, by simp, here.mono (by simp [whole])⟩

/-- What an instruction uses was provided on every way to it. -/
theorem Guarded.on_path (guarded : f.Guarded A) (formed : f.Formed) {n : Nat}
    (path : f.Path ns n) (known : f.arena[n]? = some i) (used : i.Uses x) : f.Provide ns x := by
  cases path with
  | intro route whole =>
    rcases guarded.uses whole known x used with there | here
    · obtain ⟨c, member, given⟩ := guarded.on_route formed route there
      exact given.mono fun m inside => List.mem_append_left _ (List.mem_flatMap.2 ⟨c, member, inside⟩)
    · exact here.mono (List.subset_append_right _ _)

/-- A block is reached before it is passed. -/
theorem Route.simple {passed : List Nat} (route : f.Route passed b) :
    ∃ passed', f.Route passed' b ∧ b ∉ passed' := by
  -- a block that was passed was reached on a shorter way
  have shorter : ∀ {passed : List Nat} {b c : Nat}, f.Route passed b → c ∈ passed →
      ∃ passed', f.Route passed' c ∧ passed'.length < passed.length := by
    intro passed b c route member
    induction route with
    | entry => cases member
    | @step passed b _ route _ ih =>
      rcases List.mem_append.1 member with earlier | last
      · obtain ⟨passed', route', short⟩ := ih earlier
        exact ⟨passed', route', by rw [List.length_append]; omega⟩
      · cases List.mem_singleton.1 last
        exact ⟨passed, route, by simp⟩
  induction size : passed.length using Nat.strongRecOn generalizing passed with
  | ind size ih =>
    by_cases again : b ∈ passed
    · obtain ⟨passed', route', short⟩ := shorter route again
      exact ih passed'.length (size ▸ short) route' rfl
    · exact ⟨passed, route, again⟩

/-- An instruction is in one block only. -/
theorem Formed.unique (formed : f.Formed) {b c n : Nat} (here : n ∈ (f.block b).instrs)
    (there : n ∈ (f.block c).instrs) : b = c := by
  obtain ⟨i, known, owner⟩ := formed.owner b n here
  obtain ⟨j, known', owner'⟩ := formed.owner c n there
  rw [known] at known'
  cases known'
  rw [owner] at owner'
  cases owner'
  rfl

/-! ## Values that are computed on every way -/

/-- Instruction `m` is passed on every way from the entry to block `b`. -/
def Passed (f : Func) (b m : Nat) : Prop :=
  ∀ passed, f.Route passed b → ∃ c ∈ passed, m ∈ (f.block c).instrs

/-- Instruction `m` is passed on every way from the entry to instruction `n`. -/
def Dominates (f : Func) (m n : Nat) : Prop := ∀ ns, f.Path ns n → m ∈ ns

/-- Code in which an instruction uses values that are computed before it in its block, or on
every way to the block. -/
structure Dominated (f : Func) : Prop where
  operand : ∀ {b n m : Nat} {before behind : List Nat} {i : Instr}, b ∈ f.layout →
    (f.block b).instrs = before ++ n :: behind → f.arena[n]? = some i → (m : Value) ∈ i.args →
    f.Passed b m ∨ m ∈ before

theorem Guarded.dominated (guarded : f.Guarded A) (formed : f.Formed) : f.Dominated where
  operand _ whole known used := by
    refine (guarded.operand whole known used).imp (fun there passed route => ?_) id
    obtain ⟨c, member, computed⟩ := guarded.on_route formed route there
    exact ⟨c, member, provide_value.1 computed⟩

/-- What dominates an instruction was passed by then, or stands before it in its block. -/
theorem Dominates.passed {b m n : Nat} (dominates : f.Dominates m n)
    (whole : (f.block b).instrs = before ++ n :: behind) : f.Passed b m ∨ m ∈ before := by
  by_cases here : m ∈ before
  · exact .inr here
  · refine .inl fun passed route => ?_
    rcases List.mem_append.1 (dominates _ (.intro route whole)) with there | there
    · exact List.mem_flatMap.1 there
    · exact absurd there here

namespace Passed

variable {b c m : Nat}

/-- Nothing is passed before the entry. -/
theorem not_entry (formed : f.Formed) : ¬ f.Passed 0 m := by
  intro there
  obtain ⟨c, none, -⟩ := there [] (.entry formed.first)
  cases none

/-- What is passed before a block is in another one. -/
theorem elsewhere (there : f.Passed b m) (formed : f.Formed) (listed : b ∈ f.layout) :
    ∃ c, c ≠ b ∧ m ∈ (f.block c).instrs := by
  obtain ⟨passed, route⟩ := formed.reached b listed
  obtain ⟨passed', route', new⟩ := route.simple
  obtain ⟨c, member, computed⟩ := there passed' route'
  exact ⟨c, fun same => new (same ▸ member), computed⟩

/-- What is passed before a block is in the function. -/
theorem mem_instrs (there : f.Passed b m) (formed : f.Formed) (listed : b ∈ f.layout) :
    m ∈ f.instrs := by
  obtain ⟨passed, route⟩ := formed.reached b listed
  obtain ⟨c, member, computed⟩ := there passed route
  exact List.mem_flatMap.2 ⟨c, route.passed_listed formed member, computed⟩

/-- What is passed before a block was passed before or in each block that control comes from. -/
theorem leaves (there : f.Passed c m) (goes : c ∈ f.targets b) :
    f.Passed b m ∨ m ∈ (f.block b).instrs := by
  by_cases here : m ∈ (f.block b).instrs
  · exact .inr here
  · refine .inl fun passed route => ?_
    obtain ⟨d, member, computed⟩ := there _ (.step route goes)
    rcases List.mem_append.1 member with earlier | last
    · exact ⟨d, earlier, computed⟩
    · cases List.mem_singleton.1 last
      exact absurd computed here

end Passed

/-- The operands of the instructions of a block are in blocks of the layout. -/
theorem Dominated.operand_block (dominated : f.Dominated) (formed : f.Formed) {b n m : Nat}
    (listed : b ∈ f.layout) (member : n ∈ (f.block b).instrs) (known : f.arena[n]? = some i)
    (used : (m : Value) ∈ i.args) : ∃ c ∈ f.layout, m ∈ (f.block c).instrs := by
  obtain ⟨before, behind, whole⟩ := List.append_of_mem member
  rcases dominated.operand listed whole known used with there | here
  · exact List.mem_flatMap.1 (there.mem_instrs formed listed)
  · exact ⟨b, listed, by simp [whole, here]⟩

theorem Dominated.operand_mem (dominated : f.Dominated) (formed : f.Formed) {n m : Nat}
    (member : n ∈ f.instrs) (known : f.arena[n]? = some i) (used : (m : Value) ∈ i.args) : m ∈ f.instrs := by
  obtain ⟨b, listed, here⟩ := List.mem_flatMap.1 member
  exact List.mem_flatMap.2 (dominated.operand_block formed listed here known used)

theorem Guarded.operand_block (guarded : f.Guarded A) (formed : f.Formed) {b n m : Nat}
    (listed : b ∈ f.layout) (member : n ∈ (f.block b).instrs) (known : f.arena[n]? = some i)
    (used : (m : Value) ∈ i.args) : ∃ c, m ∈ (f.block c).instrs := by
  obtain ⟨c, -, there⟩ := (guarded.dominated formed).operand_block formed listed member known used
  exact ⟨c, there⟩

/-- An instruction of a block that got one more at its end is that one or one of those
before. -/
theorem split_append (f : Func) {b c n : Nat} {op : Op} {t : DataType} {args : List Value}
    (inside : b < f.blocks.size)
    (whole : ((f.append b op t args).block c).instrs = before ++ n :: behind) :
    (c = b ∧ before = (f.block b).instrs ∧ n = f.arena.size) ∨
      ∃ rest, (f.block c).instrs = before ++ n :: rest := by
  by_cases here : c = b
  · subst here
    rw [append_block f op t args inside] at whole
    rcases List.eq_nil_or_concat behind with rfl | ⟨rest, last, rfl⟩
    · obtain ⟨rfl, same⟩ := List.append_inj' whole rfl
      cases same
      exact .inl ⟨rfl, rfl, rfl⟩
    · have same : (f.block c).instrs ++ [f.arena.size] = (before ++ n :: rest) ++ [last] := by
        simpa using whole
      exact .inr ⟨rest, (List.append_inj' same rfl).1⟩
  · rw [append_block_ne f op t args here] at whole
    exact .inr ⟨behind, whole⟩

/-- An instruction that uses what is there, and branches to blocks that expect nothing
else. -/
theorem Guarded.append (guarded : f.Guarded A) (laid : f.Laid)
    (inside : b < f.blocks.size) {op : Op} {t : DataType} {args : List Value}
    (uses : ∀ i : Instr, i.op = op → i.args = args → ∀ x, i.Uses x →
      A b x ∨ f.Provide (f.block b).instrs x)
    (goes : ∀ c ∈ op.targets, ∀ x, A c x → A b x ∨ f.Provide (f.block b).instrs x) :
    (f.append b op t args).Guarded A := by
  have grows := Grows.of_append f b op t args
  have known_of_old : ∀ {c n : Nat} {before rest : List Nat} {i : Instr},
      (f.block c).instrs = before ++ n :: rest → (f.append b op t args).arena[n]? = some i →
      f.arena[n]? = some i := by
    intro c n before rest i whole known
    obtain ⟨j, known', -⟩ := laid.owner c n (by simp [whole])
    rw [grows.instr known'] at known
    rw [known', known]
  have new : ∀ {i : Instr}, (f.append b op t args).arena[f.arena.size]? = some i →
      i.op = op ∧ i.args = args := by
    intro i known
    rw [append_arena, Array.getElem?_push_size] at known
    cases known
    exact ⟨rfl, rfl⟩
  refine ⟨guarded.entry, fun whole known x used => ?_, fun whole known c member x there => ?_⟩
  · rcases split_append f inside whole with ⟨rfl, rfl, rfl⟩ | ⟨rest, old⟩
    · exact (uses _ (new known).1 (new known).2 x used).imp id (·.grows grows)
    · exact (guarded.uses old (known_of_old old known) x used).imp id (·.grows grows)
  · rcases split_append f inside whole with ⟨rfl, rfl, rfl⟩ | ⟨rest, old⟩
    · exact (goes c ((new known).1 ▸ member) x there).imp id (·.grows grows)
    · exact (guarded.goes old (known_of_old old known) c member x there).imp id (·.grows grows)

/-- Uses stay covered when code that control never reaches goes. -/
theorem Trims.guarded (trims : f.Trims g) (guarded : f.Guarded A) : g.Guarded A := by
  have split : ∀ {b n : Nat} {before behind : List Nat}, (g.block b).instrs = before ++ n :: behind →
      ∃ more, (f.block b).instrs = before ++ n :: more ∧ g.arena[n]? = f.arena[n]? := by
    intro b n before behind whole
    have stays := trims.stays b n (by simp [whole])
    by_cases left : b ∈ g.layout
    · obtain ⟨rest, goesOn⟩ := trims.instrs_prefix left
      exact ⟨behind ++ rest, by simp [← goesOn, whole], stays⟩
    · simp [trims.dropped b left] at whole
  have given : ∀ {b n : Nat} {before behind : List Nat} {x : Fact},
      (g.block b).instrs = before ++ n :: behind → f.Provide before x → g.Provide before x := by
    intro b n before behind x whole given
    refine given.congr fun m member i known => ⟨i, ?_, rfl⟩
    rw [trims.stays b m (by simp [whole, member]), known]
  refine ⟨guarded.entry, fun whole known x used => ?_, fun whole known t goes x there => ?_⟩
  · obtain ⟨more, whole', same⟩ := split whole
    exact (guarded.uses whole' (same ▸ known) x used).imp id (given whole)
  · obtain ⟨more, whole', same⟩ := split whole
    exact (guarded.goes whole' (same ▸ known) t goes x there).imp id (given whole)

end Func

end ImpCompiler
