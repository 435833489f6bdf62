import ImpCompiler.Assoc
import ImpCompiler.Sorted
import Mathlib.Data.List.Forall2
import Mathlib.Tactic.Common

/-!
# Proofs.Basics — computations that may fail, lists and finite maps

Small facts that the proofs about several parts of the compiler share.
-/

namespace ImpCompiler

set_option autoImplicit false

variable {α β : Type}

section Except

variable {ε α β : Type}

theorem Except.bind_eq_ok {x : Except ε α} {f : α → Except ε β} {b : β} :
    (x >>= f) = .ok b ↔ ∃ a, x = .ok a ∧ f a = .ok b := by
  cases x <;> simp [bind, Except.bind]

@[simp] theorem Except.pure_eq_ok {a b : α} : (pure a : Except ε α) = .ok b ↔ b = a := by
  simp [pure, Except.pure, eq_comm]

@[simp] theorem Except.not_throw_eq_ok {e : ε} {a : α} : ¬ (throw e : Except ε α) = .ok a :=
  fun same => nomatch same

theorem Except.ite_throw_eq_ok {p : Prop} [Decidable p] {x : Except ε α} {e : ε} {a : α} :
    (if p then x else throw e) = .ok a ↔ p ∧ x = .ok a := by
  split <;> simp_all

theorem Except.toOption_eq_some {x : Except ε α} {a : α} : x.toOption = some a ↔ x = .ok a := by
  cases x <;> simp [Except.toOption]

end Except

/-- A list keeps what it has when it goes on. -/
theorem getElem?_of_prefix {α : Type} {xs ys : List α} {k : Nat} {a : α} (goesOn : xs <+: ys)
    (known : xs[k]? = some a) : ys[k]? = some a := by
  obtain ⟨rest, rfl⟩ := goesOn
  have inside : k < xs.length := (List.getElem?_eq_some_iff.1 known).1
  rw [List.getElem?_append_left inside, known]

theorem mem_of_lookup [BEq α] [LawfulBEq α] {xs : List (α × β)} {a : α} {b : β}
    (known : xs.lookup a = some b) : (a, b) ∈ xs := by
  obtain ⟨before, behind, rfl, -⟩ := List.lookup_eq_some_iff.1 known
  simp

/-- A member of a list has a partner in a list that is related to it. -/
theorem exists_of_forall₂ {R : α → β → Prop} {xs : List α} {ys : List β} {x : α}
    (related : List.Forall₂ R xs ys) (member : x ∈ xs) : ∃ y ∈ ys, R x y := by
  induction related with
  | nil => cases member
  | cons first _ ih =>
    rcases List.mem_cons.1 member with rfl | member
    · exact ⟨_, by simp, first⟩
    · obtain ⟨y, member, holds⟩ := ih member
      exact ⟨y, by simp [member], holds⟩

/-- What is found in related lists is related, if a test cannot tell related members apart. -/
theorem find?_related {R : α → β → Prop} {xs : List α} {ys : List β} {p : α → Bool}
    {q : β → Bool} (agree : ∀ {x y}, R x y → q y = p x) (related : List.Forall₂ R xs ys) :
    Option.Rel R (xs.find? p) (ys.find? q) := by
  induction related with
  | nil => exact .none
  | cons first _ ih =>
    rw [List.find?_cons, List.find?_cons, agree first]
    split
    · exact .some first
    · exact ih

theorem mapM_congr {f g : α → Option β} {xs : List α} (same : ∀ x ∈ xs, f x = g x) :
    xs.mapM f = xs.mapM g := by
  induction xs with
  | nil => rfl
  | cons x xs ih =>
    rw [List.mapM_cons, List.mapM_cons, same x (by simp), ih fun y member => same y (by simp [member])]

theorem nodup_eraseDups {α : Type} [BEq α] [LawfulBEq α] (xs : List α) : xs.eraseDups.Nodup := by
  match xs with
  | [] => simp
  | x :: xs =>
    rw [List.eraseDups_cons]
    exact List.nodup_cons.2 ⟨by simp [List.mem_eraseDups], nodup_eraseDups _⟩
termination_by xs.length
decreasing_by exact Nat.lt_succ_of_le (List.length_filter_le ..)

/-! ## Lists in order -/

section Sorted

variable {α : Type} {before : α → α → Bool}

theorem insertSorted_perm (a : α) (xs : List α) : (insertSorted before a xs).Perm (a :: xs) := by
  fun_induction insertSorted before a xs with
  | case1 => exact .refl _
  | case2 b rest first => exact .refl _
  | case3 b rest later ih => exact (ih.cons b).trans (.swap a b rest)

/-- Sorting keeps all elements. -/
theorem sorted_perm (xs : List α) : (sorted before xs).Perm xs := by
  have all : ∀ xs ys : List α,
      (xs.foldl (fun ys a => insertSorted before a ys) ys).Perm (xs ++ ys) := by
    intro xs
    induction xs with
    | nil => exact fun ys => .refl _
    | cons a xs ih =>
      intro ys
      exact (ih _).trans (((insertSorted_perm a ys).append_left xs).trans List.perm_middle)
  simpa [sorted] using all xs []

/-- A list is in the order that it was put in. -/
theorem pairwise_sorted {R : α → α → Prop} (yes : ∀ a b, before a b = true → R a b)
    (no : ∀ a b, before a b = false → R b a) (trans : ∀ a b c, R a b → R b c → R a c)
    (xs : List α) : (sorted before xs).Pairwise R := by
  have one : ∀ (a : α) (ys : List α), ys.Pairwise R → (insertSorted before a ys).Pairwise R := by
    intro a ys order
    fun_induction insertSorted before a ys with
    | case1 => simp
    | case2 b rest first =>
      have here := yes a b first
      refine List.pairwise_cons.2 ⟨List.forall_mem_cons.2 ⟨here, fun c member => ?_⟩, order⟩
      exact trans a b c here ((List.pairwise_cons.1 order).1 c member)
    | case3 b rest later ih =>
      obtain ⟨first, rest⟩ := List.pairwise_cons.1 order
      refine List.pairwise_cons.2 ⟨fun c member => ?_, ih rest⟩
      rcases List.mem_cons.1 ((insertSorted_perm a _).mem_iff.1 member) with rfl | member
      · exact no c b (by simpa using later)
      · exact first c member
  have all : ∀ xs ys : List α, ys.Pairwise R →
      (xs.foldl (fun ys a => insertSorted before a ys) ys).Pairwise R := by
    intro xs
    induction xs with
    | nil => exact fun ys => id
    | cons a xs ih => exact fun ys order => ih _ (one a ys order)
  exact all xs [] .nil

end Sorted

/-! ## Finite maps -/

namespace Assoc

variable {κ α : Type} [BEq κ] [LawfulBEq κ]

theorem lookup_set (k l : κ) (a : α) (m : Assoc κ α) :
    (set k a m).lookup l = if l == k then some a else m.lookup l := by
  fun_induction set k a m with
  | case1 => cases same : l == k <;> simp [List.lookup_cons, same]
  | case2 p rest here =>
    obtain ⟨j, b⟩ := p
    cases eq_of_beq here
    cases same : l == j <;> simp [List.lookup_cons, same]
  | case3 p rest other ih =>
    obtain ⟨j, b⟩ := p
    simp only [List.lookup_cons, ih]
    cases same : l == j with
    | false => rfl
    | true =>
      cases eq_of_beq same
      simp [show ¬(l == k) = true from other]

theorem lookup_remove (k l : κ) (m : Assoc κ α) :
    (remove k m).lookup l = if l == k then none else m.lookup l := by
  induction m with
  | nil => simp [remove]
  | cons p rest ih =>
    obtain ⟨j, b⟩ := p
    simp only [remove, List.filter_cons, List.lookup_cons] at ih ⊢
    cases here : j == k with
    | true =>
      cases eq_of_beq here
      rw [if_neg (by simp), ih]
      cases l == k <;> rfl
    | false =>
      cases same : l == j with
      | false => simpa [List.lookup_cons, same] using ih
      | true =>
        cases eq_of_beq same
        simp [here]

theorem length_set_of_lookup {k : κ} {a b : α} {m : Assoc κ α} (known : m.lookup k = some b) :
    (set k a m).length = m.length := by
  fun_induction set k a m with
  | case1 => cases known
  | case2 => rfl
  | case3 p rest other ih =>
    have ne : (k == p.1) = false :=
      beq_eq_false_iff_ne.2 fun same => other (by simp [same])
    rw [List.lookup_cons, ne] at known
    simp [ih known]

theorem length_set_of_none {k : κ} {a : α} {m : Assoc κ α} (new : m.lookup k = none) :
    (set k a m).length = m.length + 1 := by
  fun_induction set k a m with
  | case1 => rfl
  | case2 p rest here =>
    cases eq_of_beq here
    simp at new
  | case3 p rest other ih =>
    have ne : (k == p.1) = false :=
      beq_eq_false_iff_ne.2 fun same => other (by simp [same])
    rw [List.lookup_cons, ne] at new
    simp [ih new]

/-- Every key has one value. -/
def Keyed (m : Assoc κ α) : Prop := (m.map Prod.fst).Nodup

theorem mem_keys_set {k l : κ} {a : α} {m : Assoc κ α} (member : l ∈ (set k a m).map Prod.fst) :
    l = k ∨ l ∈ m.map Prod.fst := by
  fun_induction set k a m with
  | case1 => simpa using member
  | case2 p rest here => simpa [eq_of_beq here] using member
  | case3 p rest other ih =>
    rcases List.mem_cons.1 member with rfl | later
    · exact .inr (by simp)
    · exact (ih later).imp id fun old => List.mem_cons_of_mem _ old

theorem Keyed.set {m : Assoc κ α} (keyed : Keyed m) (k : κ) (a : α) : Keyed (Assoc.set k a m) := by
  unfold Keyed at keyed ⊢
  fun_induction Assoc.set k a m with
  | case1 => simp
  | case2 p rest here =>
    cases eq_of_beq here
    exact keyed
  | case3 p rest other ih =>
    obtain ⟨new, rest⟩ := List.nodup_cons.1 keyed
    refine List.nodup_cons.2 ⟨fun member => ?_, ih rest⟩
    rcases mem_keys_set member with same | old
    · exact other (by simp [same])
    · exact new old

omit [LawfulBEq κ] in
theorem Keyed.remove {m : Assoc κ α} (keyed : Keyed m) (k : κ) : Keyed (Assoc.remove k m) :=
  keyed.sublist (List.filter_sublist.map Prod.fst)

/-- With distinct keys, looking up finds exactly the pairs. -/
theorem Keyed.lookup_iff {m : Assoc κ α} (keyed : Keyed m) {k : κ} {a : α} :
    m.lookup k = some a ↔ (k, a) ∈ m := by
  refine ⟨mem_of_lookup, fun member => ?_⟩
  unfold Keyed at keyed
  induction m with
  | nil => cases member
  | cons p rest ih =>
    obtain ⟨new, rest⟩ := List.nodup_cons.1 keyed
    rw [List.lookup_cons]
    rcases List.mem_cons.1 member with rfl | member
    · simp
    · have ne : (k == p.1) = false := by
        refine beq_eq_false_iff_ne.2 fun same => new ?_
        exact List.mem_map.2 ⟨(k, a), member, same⟩
      rw [ne]
      exact ih rest member

end Assoc

end ImpCompiler
