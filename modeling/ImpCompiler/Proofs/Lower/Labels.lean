import ImpCompiler.Proofs.Lower.Shape

/-!
# Proofs.Lower.Labels — blocks have different labels

A label is the text of its kind, a dot, and the number of labels of that kind before it;
the entry has no number. No digit is a dot, so a label tells its kind and its number, and
labels that are handed out one after another differ as long as there is one entry. Lowering
makes the entry first and never again.
-/

namespace ImpCompiler

set_option autoImplicit false

/-! ## Texts of numbers -/

namespace Text

theorem toNat_of_digit {c : Char} (digit : c.isDigit = true) : 48 ≤ c.toNat ∧ c.toNat ≤ 57 := by
  simpa [Char.isDigit, UInt32.le_iff_toNat_le] using digit

/-- The characters of the digits of a number. -/
theorem map_ofNat (n : Nat) :
    (Text.ofNat n).map (fun b => Char.ofNat b.toNat) = Nat.toDigits 10 n := by
  rw [Text.ofNat, List.map_map]
  refine (List.map_congr_left fun c member => ?_).trans (List.map_id _)
  have digit := toNat_of_digit (Nat.isDigit_of_mem_toDigits (by omega) (by omega) member)
  have small : c.toNat.toUInt8.toNat = c.toNat := by
    rw [Nat.toUInt8_eq, UInt8.toNat_ofNat']
    omega
  simp only [Function.comp_apply, small, Char.ofNat_toNat, id_eq]

theorem ofNat_injective {m n : Nat} (same : Text.ofNat m = Text.ofNat n) : m = n := by
  have digits : Nat.toDigits 10 m = Nat.toDigits 10 n := by
    rw [← map_ofNat, same, map_ofNat]
  rw [← @Nat.ofDigitChars_ten_toDigits m, digits, Nat.ofDigitChars_ten_toDigits]

abbrev dot : UInt8 := 46

theorem dot_notMem_ofNat (n : Nat) : dot ∉ Text.ofNat n := by
  intro member
  obtain ⟨c, digit, same⟩ := List.mem_map.1 member
  have range := toNat_of_digit (Nat.isDigit_of_mem_toDigits (by omega) (by omega) digit)
  have value : c.toNat.toUInt8.toNat = 46 := congrArg UInt8.toNat same
  rw [Nat.toUInt8_eq, UInt8.toNat_ofNat'] at value
  omega

/-- A text is split in one way by its last dot. -/
theorem split_dot {a b x y : Text} (same : a ++ dot :: x = b ++ dot :: y) (left : dot ∉ x)
    (right : dot ∉ y) : a = b ∧ x = y := by
  rcases List.append_eq_append_iff.1 same with ⟨c, rfl, rest⟩ | ⟨c, rfl, rest⟩
  · cases c with
    | nil =>
      cases rest
      exact ⟨by simp, rfl⟩
    | cons d c =>
      cases rest
      simp at left
  · cases c with
    | nil =>
      cases rest
      exact ⟨by simp, rfl⟩
    | cons d c =>
      cases rest
      simp at right

end Text

/-! ## Labels -/

namespace LabelKind

def label (k : LabelKind) (n : Nat) : Text :=
  if k = .entry then k.text else k.text ++ "." ++ Text.ofNat n

theorem text_injective {k l : LabelKind} (same : k.text = l.text) : k = l := by
  have all : ∀ k ∈ LabelKind.all, ∀ l ∈ LabelKind.all, k.text = l.text → k = l := by decide
  exact all k (by cases k <;> decide) l (by cases l <;> decide) same

theorem label_of_ne {k : LabelKind} (inner : k ≠ .entry) (n : Nat) :
    k.label n = k.text ++ Text.dot :: Text.ofNat n := by
  rw [label, if_neg inner, List.append_assoc]
  rfl

/-- No other block has a label like that of the entry. -/
theorem label_ne_entry {k : LabelKind} (inner : k ≠ .entry) (n m : Nat) :
    k.label n ≠ LabelKind.entry.label m := by
  intro same
  have none : Text.dot ∉ LabelKind.entry.label m := by
    rw [label, if_pos rfl]
    decide
  rw [← same, label_of_ne inner] at none
  simp at none

/-- A label tells its kind and its number. -/
theorem label_injective {k l : LabelKind} {m n : Nat} (inner : k ≠ .entry)
    (same : k.label m = l.label n) : k = l ∧ m = n := by
  by_cases entry : l = .entry
  · subst entry
    exact absurd same (label_ne_entry inner m n)
  · rw [label_of_ne inner, label_of_ne entry] at same
    obtain ⟨texts, numbers⟩ := Text.split_dot same (Text.dot_notMem_ofNat m) (Text.dot_notMem_ofNat n)
    exact ⟨text_injective texts, Text.ofNat_injective numbers⟩

end LabelKind

namespace Labels

def handed : List LabelKind → List Text
  | [] => []
  | k :: ks => k.label (ks.count k) :: handed ks

/-- A label that was handed out has a number below those of later ones. -/
theorem mem_handed {ks : List LabelKind} {t : Text} (member : t ∈ handed ks) :
    ∃ k n, t = k.label n ∧ n < ks.count k := by
  induction ks with
  | nil => cases member
  | cons l ks ih =>
    rcases List.mem_cons.1 member with rfl | member
    · exact ⟨l, ks.count l, rfl, by simp⟩
    · obtain ⟨k, n, same, below⟩ := ih member
      exact ⟨k, n, same, Nat.lt_of_lt_of_le below (List.count_le_count_cons ..)⟩

/-- Labels differ if there is one entry at most. -/
theorem handed_nodup {ks : List LabelKind} (single : ks.count .entry ≤ 1) : (handed ks).Nodup := by
  induction ks with
  | nil => exact .nil
  | cons l ks ih =>
    have fewer : ks.count .entry ≤ 1 := Nat.le_trans (List.count_le_count_cons ..) single
    refine List.nodup_cons.2 ⟨fun member => ?_, ih fewer⟩
    obtain ⟨k, n, same, below⟩ := mem_handed member
    by_cases entry : l = .entry
    · subst entry
      rw [List.count_cons_self] at single
      by_cases inner : k = .entry
      · subst inner
        omega
      · exact LabelKind.label_ne_entry inner n _ same.symm
    · obtain ⟨rfl, rfl⟩ := LabelKind.label_injective entry same
      exact Nat.lt_irrefl _ below

end Labels

/-! ## Blocks -/

namespace Func

/-- The blocks have the labels that were handed out, one of them for an entry. -/
structure Labelled (f : Func) : Prop where
  labels : f.blocks.toList.map Block.label = (Labels.handed f.labels.issued).reverse
  single : f.labels.issued.count .entry = 1

variable {f : Func}

theorem Labelled.append (labelled : f.Labelled) (b : Nat) (op : Op) (t : DataType)
    (args : List Value) : (f.append b op t args).Labelled := by
  refine ⟨?_, labelled.single⟩
  rw [show (f.append b op t args).labels = f.labels from rfl, ← labelled.labels]
  refine List.ext_getElem (by simp [Func.append]) fun n inside inside' => ?_
  simp only [Func.append, List.getElem_map, Array.getElem_toList, Array.getElem_modify]
  split <;> rfl

theorem Labelled.addBlock (labelled : f.Labelled) {k : LabelKind} (inner : k ≠ .entry) :
    (f.addBlock k).1.Labelled where
  labels := by
    simp [Func.addBlock, Func.pushBlock, Labels.fresh, Labels.handed, labelled.labels, LabelKind.label]
  single := by
    simp only [Func.addBlock, Func.pushBlock, Labels.fresh]
    rw [List.count_cons_of_ne inner, labelled.single]

/-- Different blocks have different labels. -/
theorem Labelled.nodup (labelled : f.Labelled) (laid : f.Laid) : (f.layout.map f.label).Nodup := by
  have same : f.layout.map f.label = f.blocks.toList.map Block.label := by
    rw [laid.layout]
    refine List.ext_getElem (by simp) fun n inside inside' => ?_
    have bound : n < f.blocks.size := by simpa using inside'
    simp [Func.label, block_eq_getElem bound]
  rw [same, labelled.labels, (List.reverse_perm _).nodup_iff]
  exact Labels.handed_nodup (Nat.le_of_eq labelled.single)

end Func

namespace Lower

/-- Blocks get the labels that are handed out for them. -/
theorem Steps.labelled {c c' : Cursor} (steps : Steps c c') (labelled : c.func.Labelled) :
    c'.func.Labelled := by
  refine steps.preserve (P := fun c => c.func.Labelled) (fun old c c' step labelled => ?_) labelled
  cases step with
  | emit planned => exact labelled.append _ _ _ _
  | slot => exact ⟨labelled.labels, labelled.single⟩
  | block inner => exact labelled.addBlock inner
  | move => exact labelled

/-- The blocks of a body have different labels. -/
theorem body_labelled {f : FuncDef} {u : Unit} {c c' : Cursor} (ran : body f c = .ok (u, c')) :
    c'.func.Labelled := by
  obtain ⟨params, ret, steps⟩ := body_steps ran
  exact steps.labelled ⟨rfl, rfl⟩

end Lower

end ImpCompiler
