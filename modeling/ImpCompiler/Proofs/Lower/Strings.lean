import ImpCompiler.Proofs.Lower.Modules
import ImpCompiler.Proofs.Tree.Literals

/-!
# Proofs.Lower.Strings — the string table of a module

Lowering makes one instruction for every string literal, in the order in which the literals stand
in the source: the strings that a function has made are those it had and then the literals of the
tree that was lowered (`expr_written`, `stmt_written`). Blocks are laid out in another order, and
dead code is taken out of them, but the arena keeps all instructions in the order in which they
were made. The string table of a module has the literals of its program without repetitions.
-/

namespace ImpCompiler

set_option autoImplicit false

/-! ## One instruction -/

def Op.literal? : Op → Option Text
  | .string s => some s
  | _ => none

/-- The string that a request asks for, if it asks for one. -/
def Request.literal? : Request → Option Text
  | .string s => some s
  | _ => none

theorem Module.stringsOf_eq (f : Func) :
    stringsOf f = (f.arena.toList.map Instr.op).filterMap Op.literal? := by
  rw [List.filterMap_map]
  rfl

theorem Func.Plans.literal {f : Func} {r : Request} {q : Op × DataType × List ValueRef}
    (accepted : f.Plans r q) : q.1.literal? = r.literal? := by
  cases accepted <;> rfl

namespace Lower

/-- The strings that the function of a cursor has made, in order. -/
def Cursor.written (c : Cursor) : List Text := Module.stringsOf c.func

section Cursors

variable (c : Cursor)

theorem Cursor.moved_written (b : Nat) : (c.moved b).written = c.written := rfl

theorem Cursor.slotted_written (name : Text) (t : DataType) :
    (c.slotted name t).written = c.written := rfl

theorem withIfBlocks_written : (withIfBlocks c).written = c.written := rfl

theorem withIfElseBlocks_written : (withIfElseBlocks c).written = c.written := rfl

theorem withWhileBlocks_written : (withWhileBlocks c).written = c.written := rfl

theorem withForBlocks_written : (withForBlocks c).written = c.written := rfl

end Cursors

variable {c c' : Cursor} {env env' : Slots} {n : Nat}

theorem emit_written {r : Request} (ran : emit r c = .ok (n, c')) :
    c'.written = c.written ++ r.literal?.toList := by
  obtain ⟨op, t, args, planned, -, rfl⟩ := emit_ok.1 ran
  rw [← planned.literal]
  simp only [Cursor.written, Module.stringsOf_eq, Cursor.emitted, Func.append, Array.toList_push,
    List.map_append, List.filterMap_append]
  cases known : op.literal? <;> simp [known]

/-- An instruction that makes no string. -/
theorem emit_silent {r : Request} (ran : emit r c = .ok (n, c')) (silent : r.literal? = none) :
    c'.written = c.written := by
  rw [emit_written ran, silent, Option.toList_none, List.append_nil]

/-! ## Expressions -/

theorem copies_written {vs ws : List Nat} (copied : copies vs c = .ok (ws, c')) :
    c'.written = c.written := by
  induction vs generalizing c ws with
  | nil =>
    obtain ⟨-, rfl⟩ := copies_nil_ok.1 copied
    rfl
  | cons v vs ih =>
    obtain ⟨_, _, _, ran, copied, -⟩ := copies_cons_ok.1 copied
    rw [ih copied, emit_silent ran rfl]

/-- `&&` and `||` add the literals of the right operand once. -/
theorem shortCircuit_written {op : BinOp} {left : Nat} {right : Lowering Nat} {ss : List Text}
    (writes : ∀ {c₁ c₂ : Cursor} {v : Nat}, right c₁ = .ok (v, c₂) → c₂.written = c₁.written ++ ss)
    (ran : shortCircuit op left right c = .ok (n, c')) : c'.written = c.written ++ ss := by
  obtain ⟨_, c₁, _, c₂, _, c₃, _, c₄, _, c₅, stored, decided, ran, stored', left', loaded⟩ :=
    shortCircuit_ok.1 ran
  have before : c₂.written = c.written := by
    rw [emit_silent decided (by unfold decision; split <;> rfl), emit_silent stored rfl]
    rfl
  rw [emit_silent loaded rfl, Cursor.moved_written, emit_silent left' rfl, emit_silent stored' rfl,
    writes ran, Cursor.moved_written, before]

mutual

/-- An expression writes its string literals, from left to right. -/
theorem expr_written : ∀ (e : Expr) {c c' : Cursor} {n : Nat},
    expr env e c = .ok (n, c') → c'.written = c.written ++ e.strings
  | .typed x t, _, _, _, ran => by
    obtain ⟨_, _, same, ran⟩ := expr_ok.1 ran
    cases same
    exact form_written t x ran
  | .int .., _, _, _, ran | .double .., _, _, _, ran | .bool .., _, _, _, ran
  | .string .., _, _, _, ran | .ident .., _, _, _, ran | .unary .., _, _, _, ran
  | .binary .., _, _, _, ran | .call .., _, _, _, ran | .index .., _, _, _, ran
  | .new .., _, _, _, ran | .length .., _, _, _, ran => absurd ran not_fail_ok

theorem form_written (t : Ty) : ∀ (x : Expr) {c c' : Cursor} {n : Nat},
    form env t x c = .ok (n, c') → c'.written = c.written ++ x.strings
  | .int .., _, _, _, ran | .double .., _, _, _, ran | .bool .., _, _, _, ran
  | .string .., _, _, _, ran => by
    simp only [form] at ran
    exact emit_written ran
  | .ident .., _, _, _, ran => by
    obtain ⟨_, -, ran⟩ := ident_ok.1 ran
    exact emit_written ran
  | .unary _ op x, _, _, _, ran => by
    obtain ⟨_, _, operand, ran⟩ := unary_ok.1 ran
    rw [emit_silent ran (by cases op <;> rfl)]
    exact expr_written x operand
  | .binary _ op x y, _, _, _, ran => by
    rw [Expr.strings, ← List.append_assoc]
    cases kind : strictRequest? op with
    | some request =>
      obtain ⟨_, _, _, _, left, right, ran⟩ := (strict_ok kind).1 ran
      rw [emit_silent ran (by cases op <;> cases kind <;> rfl), expr_written y right,
        expr_written x left]
    | none =>
      obtain ⟨_, _, left, ran⟩ := (logical_ok kind).1 ran
      rw [shortCircuit_written (expr_written y) ran, expr_written x left]
  | .call _ _ args, _, _, _, ran => by
    obtain ⟨_, _, _, _, _, evaluated, copied, -, ran⟩ := call_ok.1 ran
    rw [emit_silent ran rfl, copies_written copied]
    exact exprs_written args evaluated
  | .index _ a i, _, _, _, ran => by
    obtain ⟨_, _, _, _, _, array, index, -, ran⟩ := index_ok.1 ran
    rw [emit_silent ran rfl, expr_written i index, expr_written a array, Expr.strings,
      List.append_assoc]
  | .new _ _ sizes, _, _, _, ran => by
    obtain ⟨_, _, _, evaluated, -, ran⟩ := new_ok.1 ran
    rw [emit_silent ran rfl]
    exact exprs_written sizes evaluated
  | .length _ a _, _, _, _, ran => by
    obtain ⟨_, _, array, ran⟩ := length_ok.1 ran
    rw [emit_silent ran rfl]
    exact expr_written a array
  | .typed .., _, _, _, ran => absurd ran not_typed_ok

theorem exprs_written : ∀ (es : List Expr) {c c' : Cursor} {ns : List Nat},
    exprs env es c = .ok (ns, c') → c'.written = c.written ++ Expr.stringsOfAll es
  | [], _, _, _, ran => by
    obtain ⟨-, rfl⟩ := exprs_nil_ok.1 ran
    exact (List.append_nil _).symm
  | e :: es, _, _, _, ran => by
    obtain ⟨_, _, _, first, rest, -⟩ := exprs_cons_ok.1 ran
    rw [exprs_written es rest, expr_written e first, Expr.stringsOfAll, List.append_assoc]

end

/-! ## Statements -/

/-- Declarations write the literals of their initial values in order. -/
theorem declare_written {d : DataType} {items : List DeclItem}
    (ran : declare env d items c = .ok (env', c')) :
    c'.written = c.written ++ (items.filterMap DeclItem.init).flatMap Expr.strings := by
  induction items generalizing env c with
  | nil =>
    obtain ⟨-, rfl⟩ := declare_nil_ok.1 ran
    exact (List.append_nil _).symm
  | cons item items ih =>
    obtain ⟨_, c₁, _, _, ran, -, stored, rest⟩ := declare_cons_ok.1 ran
    rw [ih rest, emit_silent stored rfl, Cursor.slotted_written]
    obtain ⟨_, _, init⟩ := item
    cases init with
    | some e =>
      rw [expr_written e ran, List.append_assoc]
      rfl
    | none =>
      obtain ⟨_, known, ran⟩ := zero_ok.1 ran
      rw [emit_silent ran (by cases d <;> cases known <;> rfl)]
      rfl

theorem assign_written {p : Pos} {value target : Expr} {u : Unit}
    (ran : assign env p value target c = .ok (u, c')) :
    c'.written = c.written ++ (target.strings ++ value.strings) := by
  rcases assign_target ran with ⟨_, _, rfl⟩ | ⟨_, _, _, rfl⟩
  · obtain ⟨_, _, _, _, -, ran, stored⟩ := assign_ident_ok.1 ran
    rw [emit_silent stored rfl, expr_written _ ran]
    rfl
  · -- the array and the index are lowered before the value, as they are written
    obtain ⟨_, _, _, _, _, _, _, array, index, ran, stored⟩ := assign_index_ok.1 ran
    rw [emit_silent stored rfl, expr_written _ ran, expr_written _ index, expr_written _ array,
      Expr.strings, List.append_assoc, List.append_assoc, List.append_assoc]

theorem count_written {s : Nat} {op : ArithOp} (counted : count s op c = .ok ((), c')) :
    c'.written = c.written := by
  obtain ⟨_, _, _, _, _, _, _, loaded, made, added, stored⟩ := count_ok.1 counted
  rw [emit_silent stored rfl, emit_silent added rfl, emit_silent made rfl, emit_silent loaded rfl]

theorem leaveTo_written {b : Nat} (left : leaveTo b c = .ok ((), c')) : c'.written = c.written := by
  rcases leaveTo_ok.1 left with ⟨-, rfl⟩ | ⟨-, n, ran⟩
  · rfl
  · exact emit_silent ran rfl

theorem rounds_written {counter head : Nat} (round : Rounds counter head c c') :
    c'.written = c.written := by
  rcases round with ⟨-, rfl⟩ | ⟨-, c₁, n, counted, left⟩
  · rfl
  · rw [emit_silent left rfl, count_written counted]

theorem forCounter_written {name : Text} {a l counter : Nat}
    (ran : ForCounter name a c l counter c') : c'.written = c.written := by
  obtain ⟨len, made, stored⟩ := ran
  rw [emit_silent stored rfl, emit_silent made rfl, Cursor.slotted_written, emit_silent len rfl]

theorem forTest_written {counter l more : Nat} (ran : ForTest counter l c more c') :
    c'.written = c.written := by
  obtain ⟨loaded, compared⟩ := ran
  rw [emit_silent compared rfl, emit_silent loaded rfl]

theorem forElement_written {counter a slot : Nat} {d : DataType}
    (ran : ForElement counter a slot d c c') : c'.written = c.written := by
  obtain ⟨loaded, element, stored⟩ := ran
  rw [emit_silent stored rfl, emit_silent element rfl, emit_silent loaded rfl]

mutual

/-- A statement writes the string literals of its expressions. -/
theorem stmt_written : ∀ (s : Stmt) {env env' : Slots} {c c' : Cursor},
    stmt env s c = .ok (env', c') → c'.written = c.written ++ s.expressions.flatMap Expr.strings
  | .block _ body, _, _, _, _, ran => by
    obtain ⟨-, _, ran⟩ := block_ok.1 ran
    exact stmts_written body ran
  | .decl .., _, _, _, _, ran => by
    obtain ⟨_, -, ran⟩ := decl_ok.1 ran
    exact declare_written ran
  | .assign _ target _, _, _, _, _, ran => by
    rw [assign_written (assign_stmt_ok.1 ran).2, target.strings_strip]
    simp [Stmt.expressions]
  | .incr .., _, _, _, _, ran => by
    obtain ⟨-, _, -, ran⟩ := incr_ok.1 ran
    rw [count_written ran]
    simp [Stmt.expressions]
  | .ifThen _ x yes, _, _, _, _, run => by
    obtain ⟨-, _, _, _, _, _, _, _, cond, branched, ran, left, rfl⟩ := ifThen_ok.1 run
    rw [Cursor.moved_written, leaveTo_written left, stmt_written yes ran, Cursor.moved_written,
      emit_silent branched rfl, withIfBlocks_written, expr_written x cond, Stmt.expressions,
      List.flatMap_cons, List.append_assoc]
  | .ifElse _ x yes no, _, _, _, _, run => by
    obtain ⟨-, _, _, _, _, _, _, _, _, _, _, cond, branched, ran, left, ran', left', rfl⟩ :=
      ifElse_ok.1 run
    rw [Cursor.moved_written, leaveTo_written left', stmt_written no ran', Cursor.moved_written,
      leaveTo_written left, stmt_written yes ran, Cursor.moved_written, emit_silent branched rfl,
      withIfElseBlocks_written, expr_written x cond]
    simp [Stmt.expressions]
  | .while _ x body, _, _, _, _, run => by
    -- the condition has one block, which the body goes back to
    obtain ⟨-, _, _, _, _, _, _, _, _, _, entered, cond, branched, ran, left, rfl⟩ :=
      while_ok.1 run
    rw [Cursor.moved_written, leaveTo_written left, stmt_written body ran, Cursor.moved_written,
      emit_silent branched rfl, expr_written x cond, Cursor.moved_written,
      emit_silent entered rfl, withWhileBlocks_written, Stmt.expressions, List.flatMap_cons,
      List.append_assoc]
  | .forEach _ _ _ x body, _, _, _, _, run => by
    obtain ⟨-, _, _, _, _, _, _, _, _, _, _, _, _, _, _, _, _, array, counter, entered, test,
      branched, -, -, element, ran, round, rfl⟩ := forEach_ok.1 run
    rw [Cursor.moved_written, rounds_written round, stmt_written body ran, forElement_written element,
      Cursor.slotted_written, Cursor.moved_written, emit_silent branched rfl, forTest_written test,
      Cursor.moved_written, emit_silent entered rfl, withForBlocks_written,
      forCounter_written counter, expr_written x array, Stmt.expressions, List.flatMap_cons,
      List.append_assoc]
  | .ret _ value, _, _, _, _, ran => by
    obtain ⟨-, _, _, _, _, _, ran, left, marked⟩ := ret_ok.1 ran
    rw [emit_silent marked rfl, emit_silent left rfl, expr_written value ran]
    simp [Stmt.expressions]
  | .retVoid _, _, _, _, _, ran => by
    obtain ⟨-, _, _, _, left, marked⟩ := retVoid_ok.1 ran
    rw [emit_silent marked rfl, emit_silent left rfl]
    simp [Stmt.expressions]
  | .expr _ e, _, _, _, _, ran => by
    obtain ⟨-, _, ran⟩ := effect_ok.1 ran
    rw [expr_written e ran]
    simp [Stmt.expressions]
  | .empty _, _, _, _, _, ran => by
    obtain ⟨-, rfl⟩ := empty_ok.1 ran
    simp [Stmt.expressions]

theorem stmts_written : ∀ (ss : List Stmt) {env env' : Slots} {c c' : Cursor},
    stmts env ss c = .ok (env', c') →
      c'.written = c.written ++ (Stmt.expressionsOfAll ss).flatMap Expr.strings
  | [], _, _, _, _, ran => by
    obtain ⟨-, rfl⟩ := stmts_nil_ok.1 ran
    exact (List.append_nil _).symm
  | s :: ss, _, _, _, _, ran => by
    obtain ⟨_, _, first, rest⟩ := stmts_cons_ok.1 ran
    rw [stmts_written ss rest, stmt_written s first, Stmt.expressionsOfAll, List.flatMap_append,
      List.append_assoc]

end

/-! ## Functions -/

theorem storeParams_written {k : Nat} {ps : List (Param × DataType)}
    (ran : storeParams env k ps c = .ok (env', c')) : c'.written = c.written := by
  induction ps generalizing env k c with
  | nil =>
    obtain ⟨-, rfl⟩ := storeParams_nil_ok.1 ran
    rfl
  | cons q ps ih =>
    obtain ⟨-, _, _, _, _, got, stored, rest⟩ := storeParams_cons_ok.1 ran
    rw [ih rest, emit_silent stored rfl, emit_silent got rfl, Cursor.slotted_written]

/-- A function writes its literals in the order of the text. -/
theorem body_written {f : FuncDef} {u : Unit} (ran : body f c = .ok (u, c')) :
    c'.written = f.literals := by
  obtain ⟨params, ret, _, _, _, c₂, -, -, stored, ran, closed⟩ := body_ok.1 ran
  have inner : c₂.written = f.literals := by
    rw [stmts_written f.body ran, storeParams_written stored]
    rfl
  rcases closed with ⟨-, rfl⟩ | ⟨-, n, ended⟩
  · exact inner
  · rw [emit_silent ended (by unfold endRequest; split <;> rfl), inner]

end Lower

/-- The strings of a function depend on what its instructions do, not on their blocks. -/
theorem Module.stringsOf_congr {f g : Func}
    (code : ∀ n : Nat, g.arena[n]?.map Instr.code = f.arena[n]?.map Instr.code) :
    stringsOf g = stringsOf f := by
  have ops : g.arena.toList.map Instr.op = f.arena.toList.map Instr.op := by
    refine List.ext_getElem? fun n => ?_
    have same := congrArg (Option.map Prod.fst) (code n)
    rw [Option.map_map, Option.map_map] at same
    rw [List.getElem?_map, List.getElem?_map, Array.getElem?_toList, Array.getElem?_toList]
    exact same
  rw [stringsOf_eq, stringsOf_eq, ops]

/-- Building the flow of control removes no string, whether or not it succeeds. -/
theorem Func.buildFlow_strings (f : Func) :
    Module.stringsOf f.buildFlow.1 = Module.stringsOf f := by
  unfold buildFlow
  dsimp only
  split
  · exact Module.stringsOf_congr strip_code
  · split
    · exact Module.stringsOf_congr strip_code
    · exact Module.stringsOf_congr (Laid.left_code f _)

theorem Lower.function_strings {f : FuncDef} {g : Func} (lowered : function f = .ok g) :
    Module.stringsOf g = f.literals := by
  obtain ⟨c, ran, built⟩ := function_ok.1 lowered
  have kept := c.func.buildFlow_strings
  rw [built] at kept
  exact kept.trans (body_written ran)

/-- The strings of the module are the literals of the program. -/
theorem Program.lower_strings {p : Program} {threads : Int} {path : Text} {m : Module}
    (ran : p.lower threads path = .ok m) : m.functions.flatMap Module.stringsOf = p.literals := by
  have each : List.Forall₂ (· = ·) (p.functions.map FuncDef.literals)
      (m.functions.map Module.stringsOf) := by
    rw [List.forall₂_map_left_iff, List.forall₂_map_right_iff]
    exact (lower_ok ran).imp fun f g lowered => (Lower.function_strings lowered).symm
  rw [List.forall₂_eq_eq_eq] at each
  rw [literals, List.flatMap_def, List.flatMap_def, each]

/-! ## The table -/

namespace Module

/-- A table has the texts of a list in the order in which they first occur, and none twice. -/
structure Lists (table texts : List Text) : Prop where
  members : ∀ s, s ∈ table ↔ s ∈ texts
  order : table.Pairwise fun s t => texts.idxOf s < texts.idxOf t
  nodup : table.Nodup

/-- Only repetitions go. -/
theorem mem_distinct {seen texts : List Text} {s : Text} :
    s ∈ distinct seen texts ↔ s ∈ texts ∧ s ∉ seen := by
  induction texts generalizing seen with
  | nil => simp [distinct]
  | cons t texts ih =>
    rw [distinct]
    by_cases again : t ∈ seen
    · rw [if_pos (by simpa using again), ih]
      constructor
      · exact fun ⟨later, new⟩ => ⟨List.mem_cons_of_mem t later, new⟩
      · rintro ⟨member, new⟩
        refine ⟨(List.mem_cons.1 member).resolve_left fun same => ?_, new⟩
        exact new (same ▸ again)
    · rw [if_neg (by simpa using again), List.mem_cons, ih]
      by_cases same : s = t
      · simp [same, again]
      · simp [same]

/-- Strings stay in the order in which they first appear. -/
theorem distinct_order (texts seen : List Text) :
    (distinct seen texts).Pairwise fun s t => texts.idxOf s < texts.idxOf t := by
  induction texts generalizing seen with
  | nil => exact .nil
  | cons t texts ih =>
    have later : ∀ {s}, s ≠ t → (t :: texts).idxOf s = texts.idxOf s + 1 := fun other =>
      List.idxOf_cons_ne texts other.symm
    have others : ∀ seen', t ∈ seen' → (distinct seen' texts).Pairwise fun s u =>
        (t :: texts).idxOf s < (t :: texts).idxOf u := by
      intro seen' known
      have apart : ∀ {s}, s ∈ distinct seen' texts → s ≠ t := fun member same =>
        (mem_distinct.1 member).2 (same ▸ known)
      refine (ih seen').imp_of_mem fun first second less => ?_
      rw [later (apart first), later (apart second)]
      exact Nat.succ_lt_succ less
    rw [distinct]
    by_cases again : t ∈ seen
    · rw [if_pos (by simpa using again)]
      exact others seen again
    · rw [if_neg (by simpa using again)]
      refine List.pairwise_cons.2 ⟨fun s member => ?_, others _ List.mem_cons_self⟩
      have new := (mem_distinct.1 member).2
      rw [List.idxOf_cons_self, later fun same => new (by simp [same])]
      exact Nat.succ_pos _

theorem distinct_lists (texts : List Text) : Lists (distinct [] texts) texts where
  members s := by simp [mem_distinct]
  order := distinct_order texts []
  nodup := (distinct_order texts []).imp fun less same => by simp [same] at less

end Module

/-- The string table of a module lists the string literals of its program, those of all functions
and also of code behind a return, in the order in which they first occur from left to right, and
none of them twice. It does not matter whether constants were folded, nor how many threads did
that or lowered the functions. -/
theorem string_table_lists_the_literals {p q : Program} {threads : Int} {path : Text} {m : Module}
    (checked : p.check = (q, none))
    (lowered : q.lower threads path = .ok m ∨
      ∃ folders, (q.fold folders).tree.lower threads path = .ok m) :
    Module.Lists m.strings p.literals := by
  have same : q.literals = p.literals := by
    rw [← p.literals_check, checked]
  have all : m.functions.flatMap Module.stringsOf = p.literals := by
    rcases lowered with plain | ⟨folders, folded⟩
    · exact (Program.lower_strings plain).trans same
    · exact (Program.lower_strings folded).trans
        ((Program.literals_fold checked folders).trans same)
  rw [← all]
  exact Module.distinct_lists _

/-- A program that says the same in several places, also behind a return. -/
def echoesText : Text :=
  "void last() \x7b printString(\"b\"); \x7d " ++
  "int main() \x7b " ++
    "int i = 1 + 1; " ++
    "while (i > 0 && true) \x7b printString(\"a\"); i--; \x7d " ++
    "if (i == 0) printString(\"b\"); else printString(\"\"); " ++
    "return 0; " ++
    "printString(\"c\"); \x7d"

def echoes : Program :=
  match Program.parse echoesText with
  | .ok p => p
  | .error _ => ⟨[]⟩

theorem echoes_listed : ∃ q m, echoes.check = (q, none) ∧
    (q.fold 2).tree.lower 3 "echoes" = .ok m ∧
    Module.Lists m.strings ["b", "a", "b", "", "c"] := by
  have checked : echoes.check.2 = none := Option.isNone_iff_eq_none.1 (by decide +kernel)
  obtain ⟨q, same, made⟩ : ∃ q, echoes.check = (q, none) ∧
      ((q.fold 2).tree.lower 3 "echoes").toOption.isSome = true :=
    ⟨echoes.check.1, Prod.ext rfl checked, by decide +kernel⟩
  obtain ⟨m, known⟩ := Option.isSome_iff_exists.1 made
  have lowered := Except.toOption_eq_some.1 known
  have lists := string_table_lists_the_literals same (.inr ⟨2, lowered⟩)
  have literals : echoes.literals = (["b", "a", "b", "", "c"] : List Text) := by decide +kernel
  rw [literals] at lists
  exact ⟨q, m, same, lowered, lists⟩

end ImpCompiler
