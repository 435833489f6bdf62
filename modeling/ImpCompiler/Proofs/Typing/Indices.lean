import ImpCompiler.Proofs.Typing.Complete

/-!
# Proofs.Typing.Indices — one index at a time

`infer` looks at a chain of indices as a whole: it counts the indices and compares their
number with the dimensions of the array at the bottom. What comes out is what the rule for
one index gives, level by level (`infer_index_iff`). A chain that is short enough is inferred
as an expression (`infer_of_chain`), and an expression of an array type is a chain
(`chain_of_infer`), because no operator has an array as its result.
-/

namespace ImpCompiler

set_option autoImplicit false

namespace Typing

variable {env : Env}

/-- A chain whose array has enough dimensions is inferred as the expression it stands for. -/
theorem infer_of_chain : ∀ (e : Expr) {c : Chain} {t : Ty}, inferChain env e = .ok c → c.Leads t →
    infer env e = .ok (t, c.tree)
  | .typed x _, _, _, ran, leads => by
    rw [inferChain] at ran
    rw [infer]
    exact infer_of_chain x ran leads
  | .index p x i, _, t, ran, leads => by
    obtain ⟨i', d, index, chain, rfl⟩ := inferChain_index_ok.1 ran
    have type : t = ⟨d.array.base, d.array.dims - (d.indices + 1)⟩ := congrArg₂ Ty.mk leads.base leads.dims
    exact infer_index_ok.2 ⟨i', d, index, chain, leads.indices, type, rfl⟩
  | .ident .., _, t, ran, leads | .call .., _, t, ran, leads | .new .., _, t, ran, leads => by
    obtain ⟨u, e', typed, rfl⟩ := (inferChain_base_ok rfl).1 ran
    have type : t = u := congrArg₂ Ty.mk leads.base leads.dims
    rw [type]
    exact typed
  | .int .., _, _, ran, _ | .double .., _, _, ran, _ | .bool .., _, _, ran, _ | .string .., _, _, ran, _
  | .unary .., _, _, ran, _ | .binary .., _, _, ran, _ | .length .., _, _, ran, _ => by
    simp [inferChain] at ran

/-- An expression of an array type is a variable, a call, a construction or a chain of
indices on one of them. -/
theorem chain_of_infer : ∀ (e : Expr) {t : Ty} {e' : Expr}, infer env e = .ok (t, e') →
    t.isArray = true → ∃ c, inferChain env e = .ok c ∧ c.Leads t ∧ c.tree = e'
  | .typed x _, _, _, ran, isArray => by
    rw [infer] at ran
    rw [inferChain]
    exact chain_of_infer x ran isArray
  | .index p x i, _, _, ran, _ => by
    obtain ⟨i', c, index, chain, enough, rfl, rfl⟩ := infer_index_ok.1 ran
    exact ⟨_, inferChain_index_ok.2 ⟨i', c, index, chain, rfl⟩, ⟨enough, rfl, rfl⟩, rfl⟩
  | .ident .., t, e', ran, _ | .call .., t, e', ran, _ | .new .., t, e', ran, _ =>
    ⟨_, (inferChain_base_ok rfl).2 ⟨t, e', ran, rfl⟩, ⟨Nat.zero_le _, rfl, rfl⟩, rfl⟩
  | .unary .., _, _, ran, isArray => by
    obtain ⟨x', operand, accepts, rfl⟩ := infer_unary_ok.1 ran
    rw [(signs_iff.2 accepts).not_array] at isArray
    cases isArray
  | .binary .., _, _, ran, isArray => by
    obtain ⟨u, x', y', left, right, accepts, result, rfl⟩ := infer_binary_ok.1 ran
    rw [(operates_iff.2 ⟨accepts, result⟩).not_array] at isArray
    cases isArray
  | .length .., _, _, ran, isArray => by
    obtain ⟨u, x', array, _, _, rfl, rfl⟩ := infer_length_ok.1 ran
    cases isArray
  | .int .., _, _, ran, isArray | .double .., _, _, ran, isArray | .bool .., _, _, ran, isArray
  | .string .., _, _, ran, isArray => by
    cases ran
    cases isArray

/-- The rule for one index, whatever the array is. -/
theorem infer_index_iff {p : Pos} {x i : Expr} {t : Ty} {e : Expr} :
    infer env (.index p x i) = .ok (t, e) ↔
      ∃ a x' i', infer env i = .ok (Ty.int, i') ∧ infer env x = .ok (a, x') ∧ a.elem? = some t ∧
        e = .typed (.index p x' i') t := by
  constructor
  · intro ran
    obtain ⟨i', c, index, chain, enough, rfl, rfl⟩ := infer_index_ok.1 ran
    have array := infer_of_chain (t := ⟨c.array.base, c.array.dims - c.indices⟩) x chain
      ⟨Nat.le_of_succ_le enough, rfl, rfl⟩
    refine ⟨_, _, i', index, array, elem?_eq_some.2 ⟨rfl, ?_⟩, ?_⟩
    · show c.array.dims - c.indices = c.array.dims - (c.indices + 1) + 1
      omega
    · rw [Chain.apply, Chain.nextType_eq]
  · rintro ⟨a, x', i', index, array, elem, rfl⟩
    obtain ⟨c, chain, leads, rfl⟩ := chain_of_infer x array (isArray_of_elem? elem)
    obtain ⟨enough, base, dims⟩ := leads.apply elem p i'
    have type : t = ⟨c.array.base, c.array.dims - (c.indices + 1)⟩ := congrArg₂ Ty.mk base dims
    refine infer_index_ok.2 ⟨i', c, index, chain, enough, type, ?_⟩
    rw [Chain.apply, Chain.nextType_eq, ← type]

/-- An annotated chain of indices: at the bottom is what has an array type by itself, and
every index has the type of the elements of what it is applied to. -/
inductive Leveled : Expr → Ty → Prop
  | bottom {x : Expr} {t : Ty} (base : isChainBase x = true) : Leveled (.typed x t) t
  | level {p : Pos} {a i : Expr} {t u : Ty} (below : Leveled a t) (elem : t.elem? = some u) :
      Leveled (.typed (.index p a i) u) u

/-- Each index takes one dimension off an array. -/
theorem HasType.leveled {σ : Signatures} {Γ : Context} {e : Expr} {t : Ty} (typed : HasType σ Γ e t)
    (isArray : t.isArray = true) : Leveled e t := by
  cases typed with
  | typed form =>
    cases form with
    | index elem array _ => exact .level (array.leveled (isArray_of_elem? elem)) elem
    | ident _ => exact .bottom rfl
    | call _ => exact .bottom rfl
    | new _ => exact .bottom rfl
    | unary accepts _ =>
      rw [(signs_iff.2 accepts).not_array] at isArray
      cases isArray
    | binary accepts _ _ =>
      rw [(operates_iff.2 ⟨accepts, rfl⟩).not_array] at isArray
      cases isArray
    | _ => cases isArray
termination_by sizeOf e

/-- An index is typed by the rule for one index: its type is that of the elements of its
array, and the array and the index are annotated as they are on their own. Every level of a
chain of indices has the type of the elements of the level below it. -/
theorem indices_are_typed_one_by_one (env : Env) (p : Pos) (x i : Expr) :
    (∀ t, (∃ e, infer env (.index p x i) = .ok (t, e)) ↔
      (∃ i', infer env i = .ok (Ty.int, i')) ∧
        ∃ a x', infer env x = .ok (a, x') ∧ a.isArray = true ∧ a.elem? = some t) ∧
    ∀ t e, infer env (.index p x i) = .ok (t, e) →
      Leveled e t ∧ ∃ a x' i', infer env x = .ok (a, x') ∧ infer env i = .ok (Ty.int, i') ∧
        e = .typed (.index p x' i') t := by
  refine ⟨fun t => ⟨?_, ?_⟩, fun t e ran => ?_⟩
  · rintro ⟨e, ran⟩
    obtain ⟨a, x', i', index, array, elem, -⟩ := infer_index_iff.1 ran
    exact ⟨⟨i', index⟩, a, x', array, isArray_of_elem? elem, elem⟩
  · rintro ⟨⟨i', index⟩, a, x', array, -, elem⟩
    exact ⟨_, infer_index_iff.2 ⟨a, x', i', index, array, elem, rfl⟩⟩
  · obtain ⟨a, x', i', index, array, elem, rfl⟩ := infer_index_iff.1 ran
    have below := (infer_sound x array).leveled (isArray_of_elem? elem)
    exact ⟨.level below elem, a, x', i', array, index, rfl⟩

end Typing

end ImpCompiler
