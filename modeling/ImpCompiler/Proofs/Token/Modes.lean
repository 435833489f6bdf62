import ImpCompiler.Proofs.Token.Respacing
import ImpCompiler.Proofs.Token.Window

/-!
# Proofs.Token.Modes — the machine reads what the lexer reads

Whatever the source is, the machine of `Proofs.Token.Window` runs without getting stuck until
it stops, and it has then read what `tokens` reads (`machine_reads`). Each mode is taken from
where it is entered to where it is left, by induction on the text that is still to be read.
-/

namespace ImpCompiler.Lexer

set_option autoImplicit false

open Text (shown Alike)
open Spot (Sees)

/-! ## Runs -/

/-- The machine gets from the configuration to one with the property. -/
def Leads (src : Text) (c : Config) (P : Config → Prop) : Prop := ∃ d, Runs src c d ∧ P d

namespace Leads

variable {src : Text} {c : Config} {P Q : Config → Prop}

theorem here (holds : P c) : Leads src c P := ⟨c, .refl, holds⟩

theorem step {m : Mode} {next : Option Mode} {w w' : Window}
    (ran : Lexer.step src m w = some (next, w')) (later : Leads src ⟨next, w'⟩ P) :
    Leads src ⟨some m, w⟩ P := by
  obtain ⟨d, runs, holds⟩ := later
  exact ⟨d, .head (.mk ran) runs, holds⟩

theorem imp (leads : Leads src c P) (weaker : ∀ d, P d → Q d) : Leads src c Q := by
  obtain ⟨d, runs, holds⟩ := leads
  exact ⟨d, runs, weaker d holds⟩

theorem trans (first : Leads src c P) (later : ∀ d, P d → Leads src d Q) : Leads src c Q := by
  obtain ⟨d, runs, holds⟩ := first
  obtain ⟨e, more, ends⟩ := later d holds
  exact ⟨e, Relation.ReflTransGen.trans runs more, ends⟩

end Leads

/-- The machine is about to read what stands behind the spot. -/
def Between (s : Spot) (c : Config) : Prop := ∃ k, c = ⟨some .global, .on s [] k⟩

def Fails (src : Text) (e : LexError) (c : Config) : Prop :=
  c.mode = none ∧ c.window.InBounds src ∧ c.window.error = some e

theorem stop_run {src : Text} {s : Spot} {pending : Text} {k : Nat}
    (inside : (Window.on s pending k).InBounds src) (cause : LexCause) :
    ∃ w, stop cause (.on s pending k) = some (none, w) ∧ Fails src ⟨s.place, cause⟩ ⟨none, w⟩ :=
  ⟨_, rfl, rfl, inside, rfl⟩

/-! ## Classes of bytes -/

theorem alike_isAlpha : Alike isAlpha where
  zero := by decide
  wide b large := by
    have high : 0x80 ≤ b.toNat := large
    simp only [isAlpha, decide_eq_decide, UInt8.le_iff_toNat_le, UInt8.reduceToNat]
    omega

theorem alike_isDigit : Alike isDigit where
  zero := by decide
  wide b large := by
    have high : 0x80 ≤ b.toNat := large
    simp only [isDigit, decide_eq_decide, UInt8.le_iff_toNat_le, UInt8.reduceToNat]
    omega

theorem alike_isWord : Alike isWord :=
  .or (.or alike_isAlpha alike_isDigit) (.beq (by decide) (by decide))

theorem alike_isMark : Alike isMark := .or (.beq (by decide) (by decide)) (.beq (by decide) (by decide))

theorem alike_isSign : Alike isSign := .or (.beq (by decide) (by decide)) (.beq (by decide) (by decide))

theorem notMem_append {b : UInt8} {t u : Text} (first : b ∉ t) (second : b ∉ u) : b ∉ t ++ u :=
  fun member => (List.mem_append.1 member).elim first second

theorem notMem_takeWhile {f : UInt8 → Bool} {b : UInt8} (none : f b = false) (t : Text) :
    b ∉ t.takeWhile f := fun member =>
  Bool.noConfusion ((List.mem_takeWhile_imp member).symm.trans none)

section Modes

variable {s : Spot} {src pending rest : Text} {k : Nat} {b : UInt8} {c : Config}

/-! ## Words and numbers -/

/-- The machine reads on in a mode while the units have a property. -/
theorem through {f : UInt8 → Bool} {m : Mode} {P : Config → Prop} (alike : Alike f)
    (stays : ∀ {pending rest taken : Text} {k : Nat}, s.Sees src pending rest →
      rest = taken ++ (Text.ahead rest).2 → f (shown rest) = true →
      step src m (.on s pending k) = some (some m, .on s (pending ++ taken) taken.length))
    (sees : s.Sees src pending rest)
    (left : ∀ k, Leads src ⟨some m, .on s (pending ++ rest.takeWhile f) k⟩ P) :
    Leads src ⟨some m, .on s pending k⟩ P := by
  induction size : rest.length using Nat.strong_induction_on generalizing pending rest k with
  | h n ih =>
    obtain ⟨taken, cut, shows⟩ := Text.ahead_cut rest
    cases kept : f (shown rest) with
    | false =>
      have nothing : rest.takeWhile f = [] := by
        rw [alike.shown] at kept
        cases rest with
        | nil => rfl
        | cons b rest => exact List.takeWhile_cons_of_neg (by simpa using kept)
      have later := left k
      rwa [nothing, List.append_nil] at later
    | true =>
      -- All bytes of the unit have the property.
      obtain ⟨some, all⟩ := alike.taken shows kept
      refine .step (stays sees cut kept) (ih _ ?_ (sees.read cut) (fun k => ?_) rfl)
      · have sizes := congrArg List.length cut
        have positive := List.length_pos_iff.2 some
        rw [List.length_append] at sizes
        omega
      · have later := left k
        rwa [cut, List.takeWhile_append_of_pos all, ← List.append_assoc] at later

/-- What is read when a mode is left. -/
theorem sees_dropWhile (f : UInt8 → Bool) (sees : s.Sees src pending rest) :
    s.Sees src (pending ++ rest.takeWhile f) (rest.dropWhile f) :=
  sees.read List.takeWhile_append_dropWhile.symm

/-- A mode is left behind the last byte with its property. -/
theorem stay_leads {f : UInt8 → Bool} {m : Mode} {x : Moving (Option Mode)} {P : Config → Prop}
    (alike : Alike f) (stays : step src m = stayWhile src f m x) (sees : s.Sees src pending rest)
    (left : ∀ k, ∃ next w, x (.on s (pending ++ rest.takeWhile f) k) = some (next, w) ∧
      Leads src ⟨next, w⟩ P) :
    Leads src ⟨some m, .on s pending k⟩ P := by
  refine through alike (fun sees cut kept => ?_) sees fun k => ?_
  · rw [stays, stayWhile, moving_bind (advance_run sees cut), Text.ahead_byte, if_pos kept]
    rfl
  · have behind := sees_dropWhile f sees
    obtain ⟨taken, cut, -⟩ := Text.ahead_cut (rest.dropWhile f)
    obtain ⟨next, w, ran, later⟩ := left taken.length
    refine .step ?_ later
    rw [stays, stayWhile, moving_bind (advance_run behind cut), Text.ahead_byte,
      if_neg (Bool.eq_false_iff.1 (alike.dropWhile rest)), moving_bind (backup_run (behind.read cut)), ran]

/-- Where the machine is when it has made a token. -/
theorem emit_leads (sees : s.Sees src pending rest) (plain : 0x0a ∉ pending) (kind : TokenKind) :
    ∃ w, (emit src kind >>= fun _ => pure (some Mode.global)) (.on s pending k) =
        some (some .global, w) ∧
      Leads src ⟨some .global, w⟩ (Between (s.take kind pending pending)) :=
  ⟨_, (moving_bind (emit_run sees plain kind)).trans rfl, .here ⟨k, rfl⟩⟩

/-- A word is read to its end. -/
theorem word_leads (sees : s.Sees src pending rest) (plain : 0x0a ∉ pending) :
    Leads src ⟨some .word, .on s pending k⟩ (Between
      (s.take (.ofWord (pending ++ rest.takeWhile isWord)) (pending ++ rest.takeWhile isWord)
        (pending ++ rest.takeWhile isWord))) := by
  have behind := sees_dropWhile isWord sees
  refine stay_leads alike_isWord rfl sees fun k => ?_
  obtain ⟨w, ran, later⟩ := emit_leads (k := k) behind
    (notMem_append plain (notMem_takeWhile (by decide) rest))
    (.ofWord (pending ++ rest.takeWhile isWord))
  refine ⟨_, w, ?_, later⟩
  rw [leaveWord, moving_bind (pendingText_run behind), ran]

theorem exponent_leads (sees : s.Sees src pending rest) (plain : 0x0a ∉ pending) :
    Leads src ⟨some .exponent, .on s pending k⟩ (Between
      (s.take .double (pending ++ rest.takeWhile isDigit) (pending ++ rest.takeWhile isDigit))) :=
  stay_leads alike_isDigit rfl sees fun _ => ⟨_, emit_leads (sees_dropWhile isDigit sees)
    (notMem_append plain (notMem_takeWhile (by decide) rest)) .double⟩

/-- Looking for a point and a digit reads nothing. -/
theorem pointAhead_run (sees : s.Sees src pending rest) :
    pointAhead src (.on s pending k) =
      some (rest.head? == some 0x2e && rest.tail.head?.any isDigit, .on s pending k) := by
  have size := sees.length
  rw [pointAhead, get_bind]
  rcases rest with _ | ⟨c, _ | ⟨d, after⟩⟩
  · rw [if_neg (by simp [size, Window.on])]
    rfl
  · rw [if_neg (by simp [size, Window.on])]
    simp
    rfl
  · have cut := slice_run (w := .on s pending k) (i := pending.length) (j := pending.length + 2) sees
      (by simp) (by simp)
    rw [List.take_length_add_append, List.drop_left] at cut
    rw [if_pos (by simp [size, Window.on])]
    exact (moving_bind cut).trans rfl

theorem exponentMarkLength_eq (t : Text) : exponentMarkLength t =
    if t.head?.any isMark then ((t.drop 1).head?.any isSign).toNat + 1 else 0 := by
  cases t with
  | nil => rfl
  | cons b t =>
    cases t with
    | nil => simp [exponentMarkLength, isMark]
    | cons c t =>
      have known : (c = 0x2b ∨ c = 0x2d) ↔ isSign c = true := by simp [isSign]
      cases sign : isSign c <;> simp [exponentMarkLength, isMark, known, sign]

theorem newline_notMem_mark {t : Text} {n : Nat} (found : exponentMarkLength t = n + 1) :
    0x0a ∉ t.take (n + 1) := by
  obtain ⟨mark, sign, taken, marks, signs⟩ := exponentMarkLength_succ found
  rw [taken]
  rcases marks with rfl | rfl <;> rcases signs with rfl | rfl | rfl <;> decide

/-- How a number ends of which `taken` has been read, up to the digits behind its point. -/
def PlacesEnd (src : Text) (s : Spot) (taken rest : Text) : Config → Prop :=
  match exponentMarkLength rest with
  | 0 => Between (s.take .double taken taken)
  | n + 1 =>
    let digits := (rest.drop (n + 1)).takeWhile isDigit
    let all := taken ++ rest.take (n + 1)
    if digits.isEmpty then Fails src ⟨s.place, .malformedExponent all⟩
    else Between (s.take .double (all ++ digits) (all ++ digits))

theorem isEmpty_takeWhile_isDigit (t : Text) : (t.takeWhile isDigit).isEmpty = !isDigit (shown t) := by
  rw [alike_isDigit.shown]
  cases t with
  | nil => rfl
  | cons d after => cases kept : isDigit d <;> simp [kept]

/-- Behind its places a number ends, or goes on with an exponent. -/
theorem leavePlaces_leads (sees : s.Sees src pending rest) (plain : 0x0a ∉ pending) :
    ∃ next w, leavePlaces src (.on s pending k) = some (next, w) ∧
      Leads src ⟨next, w⟩ (PlacesEnd src s pending rest) := by
  obtain ⟨k₁, marked⟩ := accept_run alike_isMark (by decide) sees k
  have length := exponentMarkLength_eq rest
  rw [leavePlaces, moving_bind marked, PlacesEnd]
  cases mark : rest.head?.any isMark with
  | false =>
    rw [length, mark]
    obtain ⟨w, ran, later⟩ := emit_leads (k := k₁) sees plain .double
    refine ⟨_, w, ?_, later⟩
    simpa using ran
  | true =>
    rw [mark, if_pos rfl] at length
    obtain ⟨k₂, signed⟩ := accept_run alike_isSign (by decide)
      (sees.read (List.take_append_drop 1 rest).symm) k₁
    rw [List.append_assoc, ← List.take_add, Nat.add_comm] at signed
    -- With or without a sign, `n + 1` bytes are read before the digits.
    generalize ((rest.drop 1).head?.any isSign).toNat = n at length signed
    have behind := sees.read (List.take_append_drop (n + 1) rest).symm
    obtain ⟨k₃, looked⟩ := lookAhead_run behind k₂
    simp only [length, isEmpty_takeWhile_isDigit]
    cases digit : isDigit (shown (rest.drop (n + 1))) with
    | true =>
      refine ⟨some .exponent, .on s (pending ++ rest.take (n + 1)) k₃, ?_,
        exponent_leads behind (notMem_append plain (newline_notMem_mark length))⟩
      refine (moving_bind signed).trans ((moving_bind looked).trans ?_)
      rw [Text.ahead_byte, if_pos digit]
      rfl
    | false =>
      obtain ⟨w, stopped, fails⟩ :=
        stop_run (behind.inBounds k₃) (.malformedExponent (pending ++ rest.take (n + 1)))
      refine ⟨none, w, ?_, .here fails⟩
      refine (moving_bind signed).trans ((moving_bind looked).trans ?_)
      rw [Text.ahead_byte, if_neg (Bool.eq_false_iff.1 digit)]
      exact (moving_bind (pendingText_run behind)).trans stopped

/-- A point with a digit behind it is part of the number. -/
theorem leaveWhole_point {after : Text} (sees : s.Sees src pending (0x2e :: after))
    (plain : 0x0a ∉ pending) (digit : after.head?.any isDigit = true) :
    ∃ next w, leaveWhole src (.on s pending k) = some (next, w) ∧ Leads src ⟨next, w⟩
      (PlacesEnd src s (pending ++ [0x2e] ++ after.takeWhile isDigit) (after.dropWhile isDigit)) := by
  have point := pointAhead_run (k := k) sees
  rw [List.tail_cons, digit] at point
  obtain ⟨u, -, ran⟩ := advance_ascii sees (by decide) k
  have behind : s.Sees src (pending ++ [0x2e]) after := sees.read rfl
  have free : 0x0a ∉ pending ++ [0x2e] := notMem_append plain (by decide)
  refine ⟨some .places, .on s (pending ++ [0x2e]) 1, ?_, ?_⟩
  · rw [leaveWhole, moving_bind point]
    exact (moving_bind ran).trans rfl
  · exact stay_leads alike_isDigit rfl behind fun k => leavePlaces_leads
      (sees_dropWhile isDigit behind) (notMem_append free (notMem_takeWhile (by decide) after))

/-- A letter behind digits is a malformed number. -/
theorem leaveWhole_letter {c : UInt8} {after : Text} (sees : s.Sees src pending (c :: after))
    (letter : isAlpha c = true) :
    ∃ next w, leaveWhole src (.on s pending k) = some (next, w) ∧
      Leads src ⟨next, w⟩ (Fails src ⟨s.place, .malformedNumber (pending ++ [c])⟩) := by
  have point := pointAhead_run (k := k) sees
  have other : (some c == some (0x2e : UInt8)) = false := by
    refine beq_false_of_ne ?_
    rintro ⟨⟩
    exact absurd letter (by decide)
  rw [List.head?_cons, other, Bool.false_and] at point
  obtain ⟨k', looked⟩ := lookAhead_run sees k
  have cut := slice_run (w := .on s pending k') (i := 0) (j := pending.length + 1) sees (Nat.zero_le _)
    (by simp)
  rw [Nat.add_zero, List.take_length_add_append, List.drop_zero] at cut
  obtain ⟨w, stopped, fails⟩ := stop_run (sees.inBounds k') (.malformedNumber (pending ++ [c]))
  refine ⟨none, w, ?_, .here fails⟩
  rw [leaveWhole, moving_bind point]
  refine (moving_bind looked).trans ?_
  rw [Text.ahead_byte, Text.shown_ascii (alike_isAlpha.small (by decide) letter), if_pos letter, get_bind]
  exact (moving_bind cut).trans stopped

theorem leaveWhole_integer (sees : s.Sees src pending rest) (plain : 0x0a ∉ pending)
    (noPoint : (rest.head? == some 0x2e && rest.tail.head?.any isDigit) = false)
    (noLetter : rest.head?.any isAlpha = false) :
    ∃ next w, leaveWhole src (.on s pending k) = some (next, w) ∧
      Leads src ⟨next, w⟩ (Between (s.take .integer pending pending)) := by
  have point := pointAhead_run (k := k) sees
  rw [noPoint] at point
  obtain ⟨k', looked⟩ := lookAhead_run sees k
  obtain ⟨w, ran, later⟩ := emit_leads (k := k') sees plain .integer
  refine ⟨_, w, ?_, later⟩
  rw [leaveWhole, moving_bind point]
  refine (moving_bind looked).trans ?_
  rw [Text.ahead_byte, if_neg (Bool.eq_false_iff.1 (by rw [alike_isAlpha.shown, noLetter])), ran]

/-! ## Pieces -/

def Spot.behind (s : Spot) (form : Form) (t : Text) : Spot :=
  match form with
  | .gap => s.skip t
  | .token kind => s.take kind (kind.value t) t

/-- What becomes of the machine at a piece that starts with `b`. -/
def Outcome (src : Text) (s : Spot) (b : UInt8) (rest : Text) : Except Failure Piece → Config → Prop
  | .error f => Fails src ⟨s.place.advance f.before, f.cause⟩
  | .ok ⟨form, more⟩ => Between (s.behind form (b :: rest.take more))

/-- A number with a point ends where the lexer says it does. -/
theorem PlacesEnd.outcome {after : Text}
    (tail : rest.dropWhile isDigit = 0x2e :: after) (next : after.head?.any isDigit = true)
    (ends : PlacesEnd src s ([b] ++ rest.takeWhile isDigit ++ [0x2e] ++ after.takeWhile isDigit)
      (after.dropWhile isDigit) c) : Outcome src s b rest (numberPiece b rest) c := by
  have front := List.takeWhile_append_dropWhile (p := isDigit) (l := rest)
  have taken := fun k => take_point (rest.takeWhile isDigit) 0x2e k
    (List.takeWhile_append_dropWhile (p := isDigit) (l := after))
  rw [← tail, front] at taken
  have all : ∀ k, [b] ++ rest.takeWhile isDigit ++ [0x2e] ++ after.takeWhile isDigit ++
      (after.dropWhile isDigit).take k = b :: rest.take ((rest.takeWhile isDigit).length + 1 +
        (after.takeWhile isDigit).length + k) := fun k => by simp [taken]
  simp only [numberPiece, drop_takeWhile, tail, next, and_self, if_true]
  unfold PlacesEnd at ends
  cases found : exponentMarkLength (after.dropWhile isDigit) with
  | zero =>
    have whole := all 0
    rw [List.take_zero, List.append_nil] at whole
    rw [found, whole] at ends
    exact ends
  | succ mark =>
    have digits := take_takeWhile isDigit ((after.dropWhile isDigit).drop (mark + 1))
    simp only [found, all] at ends ⊢
    split at ends
    · rename_i empty
      rw [if_pos empty]
      exact ends
    · rename_i some
      have whole := all (mark + 1 +
        (((after.dropWhile isDigit).drop (mark + 1)).takeWhile isDigit).length)
      rw [List.take_add, digits, ← List.append_assoc, all, ← Nat.add_assoc _ (mark + 1)] at whole
      rw [whole] at ends
      rw [if_neg some]
      exact ends

/-- From its first digit a number is read as the lexer cuts it. -/
theorem number_leads (digit : isDigit b = true) (sees : s.Sees src [b] rest) :
    Leads src ⟨some .whole, .on s [b] k⟩ (Outcome src s b rest (numberPiece b rest)) := by
  have plain : 0x0a ∉ b :: rest.takeWhile isDigit := by
    refine notMem_append (t := [b]) (fun member => ?_) (notMem_takeWhile (by decide) rest)
    rw [← List.mem_singleton.1 member] at digit
    exact absurd digit (by decide)
  have behind := sees_dropWhile isDigit sees
  have integer : s.behind (.token .integer) (b :: rest.take (rest.takeWhile isDigit).length) =
      s.take .integer ([b] ++ rest.takeWhile isDigit) ([b] ++ rest.takeWhile isDigit) := by
    rw [take_takeWhile]
    rfl
  refine stay_leads alike_isDigit rfl sees fun k => ?_
  cases tail : rest.dropWhile isDigit with
  | nil =>
    rw [tail] at behind
    simp only [numberPiece, drop_takeWhile, tail, Outcome, integer]
    exact leaveWhole_integer behind plain rfl rfl
  | cons c after =>
    rw [tail] at behind
    by_cases point : c = 0x2e ∧ after.head?.any isDigit = true
    · obtain ⟨rfl, next⟩ := point
      obtain ⟨m, w, ran, later⟩ := leaveWhole_point (k := k) behind plain next
      exact ⟨m, w, ran, later.imp fun c ends => ends.outcome tail next⟩
    · simp only [numberPiece, drop_takeWhile, tail, if_neg point]
      cases letter : isAlpha c with
      | true => exact leaveWhole_letter behind letter
      | false =>
        have noPoint : (some c == some (0x2e : UInt8) && after.head?.any isDigit) = false := by
          simpa using point
        have ends := leaveWhole_integer (k := k) behind plain noPoint letter
        rw [← integer] at ends
        exact ends

/-! ## Strings -/

/-- The bytes that are nothing special in a string literal. -/
def inString (b : UInt8) : Bool := !(b == 0 || b == 0x0a || b == 0x5c || b == 0x22)

theorem alike_inString : Alike inString where
  zero := by decide
  wide b large := by simp [inString, Text.ne_of_wide large]

theorem inString_iff : inString b = true ↔ ¬ (b = 0 ∨ b = 0x0a) ∧ b ≠ 0x5c ∧ b ≠ 0x22 := by
  simp [inString, and_assoc]

/-- Plain characters of a string are passed over. -/
theorem stringLength?_through {more : Text} (inside : ∀ d ∈ more, inString d = true) (t : Text) :
    stringLength? (more ++ t) = (stringLength? t).map (· + more.length) := by
  induction more with
  | nil => simp
  | cons d more ih =>
    obtain ⟨here, others⟩ := List.forall_mem_cons.1 inside
    obtain ⟨ends, escape, quote⟩ := inString_iff.1 here
    rw [List.cons_append, stringLength?.eq_def]
    simp only [if_neg ends, if_neg quote, if_neg escape, ih others, Option.map_map]
    rfl

/-- What becomes of the machine in a string literal of which `taken` has been read. -/
def StringEnds (src : Text) (s : Spot) (taken rest : Text) : Option Nat → Config → Prop
  | none => Fails src ⟨s.place, .unclosedString⟩
  | some n => Between (s.take .string (taken ++ rest.take n).tail.dropLast (taken ++ rest.take n))

theorem stringEnds_read {taken behind : Text} {n : Option Nat}
    (cut : rest = taken ++ behind) (ends : StringEnds src s (pending ++ taken) behind n c) :
    StringEnds src s pending rest (n.map (· + taken.length)) c := by
  cases n with
  | none => exact ends
  | some n =>
    have all : pending ++ rest.take (n + taken.length) = pending ++ taken ++ behind.take n := by
      rw [cut, Nat.add_comm, List.take_length_add_append, List.append_assoc]
    rw [Option.map_some, StringEnds, all]
    exact ends

theorem stringLength?_stop (ends : b = 0 ∨ b = 0x0a) (t : Text) :
    stringLength? (b :: t) = none := by
  rw [stringLength?.eq_def]
  simp only [if_pos ends]

theorem stringLength?_quote (t : Text) : stringLength? (0x22 :: t) = some 1 := by
  rw [stringLength?.eq_def]
  rfl

/-- A backslash is read with the unit behind it. -/
theorem stringLength?_escape {t taken behind : Text} (cut : t = taken ++ behind) (shows : Text.Cut t taken) :
    if shown t = 0 ∨ shown t = 0x0a then stringLength? (0x5c :: t) = none
    else 0x0a ∉ taken ∧
      stringLength? (0x5c :: t) = (stringLength? behind).map (· + (0x5c :: taken).length) := by
  cases shows with
  | done =>
    rw [if_pos (.inl Text.shown_nil)]
    decide
  | @ascii b rest small =>
    cases cut
    rw [Text.shown_ascii small, stringLength?.eq_def]
    split
    · rename_i ends
      simp only [if_pos ends]
      rfl
    · rename_i ends
      simp only [if_neg ends]
      exact ⟨by simpa [eq_comm] using fun newline => ends (.inr newline), rfl⟩
  | @wide b more rest wide =>
    cases List.append_cancel_left (show (b :: more) ++ rest = (b :: more) ++ behind from cut)
    have inside : ∀ d ∈ more, inString d = true := fun d member =>
      (alike_inString.wide d (wide d (by simp [member]))).trans rfl
    have first : ¬ (b = 0 ∨ b = 0x0a) := by
      rintro (rfl | rfl) <;> exact absurd (wide _ (List.mem_cons_self ..)) (by decide)
    rw [Text.shown_wide (wide b (by simp)), if_neg (by decide), stringLength?.eq_def]
    refine ⟨fun newline => absurd (wide _ newline) (by decide), ?_⟩
    simp only [if_neg first, stringLength?_through inside, Option.map_map]
    rfl

/-- A step in a string literal that neither closes it nor starts an escape. -/
theorem string_stays {escaped : Bool} {taken : Text} (sees : s.Sees src pending rest)
    (cut : rest = taken ++ (Text.ahead rest).2) (ends : ¬ (shown rest = 0 ∨ shown rest = 0x0a))
    (plain : escaped = true ∨ shown rest ≠ 0x5c ∧ shown rest ≠ 0x22) :
    step src (.string escaped) (.on s pending k) =
      some (some (.string false), .on s (pending ++ taken) taken.length) := by
  show stepString src escaped _ = _
  rw [stepString, moving_bind (advance_run sees cut), Text.ahead_byte, if_neg ends]
  rcases plain with rfl | ⟨escape, quote⟩
  · rfl
  · cases escaped with
    | true => rfl
    | false =>
      rw [if_neg (by decide), if_neg escape, if_neg quote]
      rfl

theorem string_stops {escaped : Bool} (sees : s.Sees src pending rest)
    (ends : shown rest = 0 ∨ shown rest = 0x0a) :
    Leads src ⟨some (.string escaped), .on s pending k⟩ (Fails src ⟨s.place, .unclosedString⟩) := by
  obtain ⟨taken, cut, -⟩ := Text.ahead_cut rest
  obtain ⟨w, stopped, fails⟩ := stop_run ((sees.read cut).inBounds _) .unclosedString
  refine .step ?_ (.here fails)
  show stepString src escaped _ = _
  rw [stepString, moving_bind (advance_run sees cut), Text.ahead_byte, if_pos ends, stopped]

/-- A quote ends the string. -/
theorem string_closes (sees : s.Sees src pending (0x22 :: rest)) (opened : pending ≠ [])
    (plain : 0x0a ∉ pending) :
    Leads src ⟨some (.string false), .on s pending k⟩
      (StringEnds src s pending (0x22 :: rest) (some 1)) := by
  obtain ⟨u, same, ran⟩ := advance_ascii sees (by decide) k
  have behind : s.Sees src (pending ++ [0x22]) rest := sees.read rfl
  have value : (pending ++ [0x22]).tail.dropLast = pending.drop 1 := by
    rw [List.tail_append_of_ne_nil opened, List.dropLast_concat, List.drop_one]
  have cut := slice_run (w := .on s (pending ++ [0x22]) 1) (i := 1) (j := pending.length) sees
    (List.length_pos_iff.2 opened) (by simp)
  have last : (Window.on s (pending ++ [0x22]) 1).pos - 1 = s.front.length + pending.length := by
    simp only [Window.on, List.length_append, List.length_singleton]
    omega
  rw [List.take_left, ← last] at cut
  have emitted := emitValue_run (k := 1) behind (notMem_append plain (by decide)) .string
    (pending.drop 1)
  rw [← value] at cut emitted
  have closed : step src (.string false) (.on s pending k) = some (some .global,
      .on (s.take .string (pending ++ [0x22]).tail.dropLast (pending ++ [0x22])) [] 1) := by
    show stepString src false _ = _
    rw [stepString, moving_bind ran, same, if_neg (by decide), if_neg (by decide),
      if_neg (by decide), if_pos rfl, get_bind]
    exact (moving_bind cut).trans ((moving_bind emitted).trans rfl)
  exact .step closed (.here ⟨1, rfl⟩)

theorem string_escapes (sees : s.Sees src pending (0x5c :: rest)) :
    step src (.string false) (.on s pending k) =
      some (some (.string true), .on s (pending ++ [0x5c]) 1) := by
  obtain ⟨u, same, ran⟩ := advance_ascii sees (by decide) k
  show stepString src false _ = _
  rw [stepString, moving_bind ran, same]
  rfl

/-- A unit behind a backslash is read, whatever it is. -/
theorem escape_leads (sees : s.Sees src (pending ++ [0x5c]) rest)
    (later : ∀ {taken behind : Text} {k : Nat}, 0x5c :: rest = taken ++ behind → 0x0a ∉ taken →
      taken ≠ [] → Leads src ⟨some (.string false), .on s (pending ++ taken) k⟩
        (StringEnds src s (pending ++ taken) behind (stringLength? behind))) :
    Leads src ⟨some (.string true), .on s (pending ++ [0x5c]) k⟩
      (StringEnds src s pending (0x5c :: rest) (stringLength? (0x5c :: rest))) := by
  obtain ⟨taken, cut, shows⟩ := Text.ahead_cut rest
  have known := stringLength?_escape cut shows
  by_cases ends : shown rest = 0 ∨ shown rest = 0x0a
  · rw [if_pos ends] at known
    rw [known]
    exact string_stops sees ends
  rw [if_neg ends] at known
  obtain ⟨free, length⟩ := known
  have all : 0x5c :: rest = (0x5c :: taken) ++ (Text.ahead rest).2 := congrArg (0x5c :: ·) cut
  have stayed := string_stays (k := k) sees cut ends (.inl rfl)
  rw [List.append_assoc, List.singleton_append] at stayed
  rw [length]
  refine .step stayed ((later all ?_ (by simp)).imp fun c ends => stringEnds_read all ends)
  exact notMem_append (t := [0x5c]) (by decide) free

/-- A string literal is read to its end, from one byte that is special to the next. -/
theorem string_leads (sees : s.Sees src pending rest) (opened : pending ≠ [])
    (plain : 0x0a ∉ pending) :
    Leads src ⟨some (.string false), .on s pending k⟩
      (StringEnds src s pending rest (stringLength? rest)) := by
  induction size : rest.length using Nat.strong_induction_on generalizing pending rest k with
  | h n ih =>
    refine through alike_inString (fun sees cut kept => ?_) sees fun k => ?_
    · obtain ⟨ends, other⟩ := inString_iff.1 kept
      exact string_stays sees cut ends (.inr other)
    have length := stringLength?_through (fun d => List.mem_takeWhile_imp (p := inString) (l := rest))
      (rest.dropWhile inString)
    have cut := (List.takeWhile_append_dropWhile (p := inString) (l := rest)).symm
    have free := notMem_append plain (notMem_takeWhile (f := inString) (b := 0x0a) (by decide) rest)
    have last := (alike_inString.shown _).symm.trans (alike_inString.dropWhile rest)
    have behind := sees_dropWhile inString sees
    rw [← cut] at length
    rw [length]
    refine Leads.imp ?_ fun c ends => stringEnds_read cut ends
    -- The bytes before the first special one are read; now it decides.
    cases special : rest.dropWhile inString with
    | nil => exact string_stops (special ▸ behind) (.inl Text.shown_nil)
    | cons b rest' =>
      rw [special] at behind cut last
      have known : (b = 0 ∨ b = 0x0a) ∨ b = 0x5c ∨ b = 0x22 := by
        simpa [inString, or_assoc, or_iff_not_imp_left] using last
      rcases known with ends | rfl | rfl
      · have shows : shown (b :: rest') = b := by
          rcases ends with rfl | rfl <;> exact Text.shown_ascii (by decide) rest'
        rw [stringLength?_stop ends]
        exact string_stops behind (by rwa [shows])
      · refine .step (string_escapes behind) (escape_leads (behind.read rfl) ?_)
        intro taken behind' k more newline some
        refine ih _ ?_ (behind.read more) (by simp [opened]) (notMem_append free newline) rfl
        have sizes := congrArg List.length cut
        have positive := List.length_pos_iff.2 some
        rw [more, List.length_append, List.length_append] at sizes
        omega
      · rw [stringLength?_quote]
        exact string_closes behind (by simp [opened]) free

/-! ## Comments -/

theorem alike_inLine : Alike fun b => b != 0x0a && b != 0 where
  zero := by decide
  wide b large := by simp [Text.ne_of_wide large]

theorem line_stays {taken : Text} (sees : s.Sees src pending rest)
    (cut : rest = taken ++ (Text.ahead rest).2) (inside : (shown rest != 0x0a && shown rest != 0) = true) :
    step src .line (.on s pending k) = some (some .line, .on s (pending ++ taken) taken.length) := by
  have other : shown rest ≠ 0x0a ∧ shown rest ≠ 0 := by simpa using inside
  show stepLine src _ = _
  rw [stepLine, moving_bind (advance_run sees cut), Text.ahead_byte, if_neg other.1, if_neg other.2]
  rfl

/-- A line comment is left with the byte that ends it. -/
theorem line_ends (sees : s.Sees src pending rest) (plain : 0x0a ∉ pending)
    (last : rest.head?.any (fun b => b != 0x0a && b != 0) = false) :
    ∃ k', step src .line (.on s pending k) =
      some (some .global, .on (s.skip (pending ++ rest.take 1)) [] k') := by
  show ∃ k', stepLine src _ = _
  cases rest with
  | nil =>
    have ran := advance_run (k := k) sees (show ([] : Text) = [] ++ (Text.ahead []).2 from rfl)
    rw [List.append_nil] at ran
    rw [List.take_nil, List.append_nil]
    exact ⟨0, (moving_bind ran).trans ((moving_bind (skip_run sees plain)).trans rfl)⟩
  | cons b rest =>
    have known : b = 0x0a ∨ b = 0 := by simpa [or_iff_not_imp_left] using last
    have behind : s.Sees src (pending ++ [b]) rest := sees.read rfl
    have small : b < 0x80 := by rcases known with rfl | rfl <;> decide
    obtain ⟨u, same, ran⟩ := advance_ascii sees small k
    refine ⟨1, ?_⟩
    rw [stepLine, moving_bind ran, same]
    rcases known with rfl | rfl
    · exact (moving_bind (newLine_run behind plain)).trans rfl
    · exact (moving_bind (skip_run behind (notMem_append plain (by decide)))).trans rfl

theorem take_lineCommentLength (t : Text) : t.take (lineCommentLength t) =
    t.takeWhile (fun b => b != 0x0a && b != 0) ++
      (t.dropWhile fun b => b != 0x0a && b != 0).take 1 := by
  simp only [lineCommentLength]
  rw [← drop_takeWhile]
  split
  · rw [List.take_add, take_takeWhile]
  · rename_i all
    rw [List.drop_of_length_le (Nat.not_lt.1 all), List.take_nil, List.append_nil, take_takeWhile]

/-- A line comment is skipped with the byte that ends it. -/
theorem line_leads (sees : s.Sees src pending rest) (plain : 0x0a ∉ pending) :
    Leads src ⟨some .line, .on s pending k⟩
      (Between (s.skip (pending ++ rest.take (lineCommentLength rest)))) := by
  refine through alike_inLine line_stays sees fun k => ?_
  obtain ⟨k', ended⟩ := line_ends (k := k) (sees_dropWhile _ sees)
    (notMem_append plain (notMem_takeWhile (by decide) rest))
    ((alike_inLine.shown _).symm.trans (alike_inLine.dropWhile rest))
  rw [List.append_assoc, ← take_lineCommentLength] at ended
  exact .step ended (.here ⟨k', rfl⟩)

theorem blockCommentLength?_read {t : Text} (nonzero : b ≠ 0)
    (open' : ¬ (b = 0x2a ∧ t.head? = some 0x2f)) :
    blockCommentLength? (b :: t) = (blockCommentLength? t).map (· + 1) := by
  rw [blockCommentLength?, if_neg nonzero, if_neg open']

/-- The bytes that are nothing special in a block comment. -/
def inBlock (b : UInt8) : Bool := !(b == 0 || b == 0x0a || b == 0x2a)

theorem alike_inBlock : Alike inBlock where
  zero := by decide
  wide b large := by simp [inBlock, Text.ne_of_wide large]

theorem inBlock_iff : inBlock b = true ↔ b ≠ 0 ∧ b ≠ 0x0a ∧ b ≠ 0x2a := by
  simp [inBlock, and_assoc]

/-- Plain characters of a comment are passed over. -/
theorem blockCommentLength?_through {more : Text} (inside : ∀ d ∈ more, inBlock d = true) (t : Text) :
    blockCommentLength? (more ++ t) = (blockCommentLength? t).map (· + more.length) := by
  induction more with
  | nil => simp
  | cons d more ih =>
    obtain ⟨here, others⟩ := List.forall_mem_cons.1 inside
    obtain ⟨zero, -, star⟩ := inBlock_iff.1 here
    rw [List.cons_append, blockCommentLength?_read zero (by simp [star]), ih others, Option.map_map]
    rfl

theorem throughLastNewline_plain {t : Text} (plain : 0x0a ∉ t) : throughLastNewline t = [] := by
  rw [throughLastNewline, List.reverse_eq_nil_iff, List.dropWhile_eq_nil_iff]
  intro b member
  simpa using fun same : b = 0x0a => plain (same ▸ List.mem_reverse.1 member)

theorem throughLastNewline_line (t u : Text) :
    throughLastNewline (t ++ [0x0a] ++ u) = t ++ [0x0a] ++ throughLastNewline u := by
  have line : (0x0a :: t.reverse).dropWhile (· != 0x0a) = 0x0a :: t.reverse := by simp
  simp only [throughLastNewline, List.append_assoc, List.singleton_append, List.reverse_append,
    List.reverse_cons, List.dropWhile_append, line]
  cases empty : (u.reverse.dropWhile (· != 0x0a)).isEmpty with
  | true => simp [List.isEmpty_iff.1 empty]
  | false => simp

/-- What becomes of the machine in a block comment of which `taken` has been read since the
last line end. -/
def BlockEnds (src : Text) (s : Spot) (taken rest : Text) : Option Nat → Config → Prop
  | none => Fails src ⟨s.place.advance (throughLastNewline (taken ++ rest.takeWhile (· != 0))),
      .unclosedComment⟩
  | some n => Between (s.skip (taken ++ rest.take n))

theorem blockEnds_read {taken behind : Text} {n : Option Nat}
    (cut : rest = taken ++ behind) (inside : 0 ∉ taken)
    (ends : BlockEnds src s (pending ++ taken) behind n c) :
    BlockEnds src s pending rest (n.map (· + taken.length)) c := by
  subst cut
  cases n with
  | none =>
    have kept : ∀ b ∈ taken, (b != 0) = true := fun b member => by
      simpa using fun same : b = 0 => inside (same ▸ member)
    rw [Option.map_none, BlockEnds, List.takeWhile_append_of_pos kept, ← List.append_assoc]
    exact ends
  | some n =>
    rw [Option.map_some, BlockEnds, Nat.add_comm, List.take_length_add_append, ← List.append_assoc]
    exact ends

theorem Spot.skip_skip (s : Spot) (t u : Text) : (s.skip t).skip u = s.skip (t ++ u) := by
  simp [Spot.skip, Pos.advance_append]

theorem blockEnds_line {behind : Text} {n : Option Nat}
    (ends : BlockEnds src (s.skip (pending ++ [0x0a])) [] behind n c) :
    BlockEnds src s pending (0x0a :: behind) (n.map (· + 1)) c := by
  cases n with
  | none =>
    rw [Option.map_none, BlockEnds, List.takeWhile_cons_of_pos (by decide), List.append_cons,
      throughLastNewline_line, Pos.advance_append]
    exact ends
  | some n =>
    rw [BlockEnds, List.nil_append, Spot.skip_skip, ← List.append_cons] at ends
    exact ends

/-- A comment that does not end is refused. -/
theorem block_stops (sees : s.Sees src pending rest) (plain : 0x0a ∉ pending)
    (zero : shown rest = 0) :
    Leads src ⟨some .block, .on s pending k⟩ (BlockEnds src s pending rest none) := by
  obtain ⟨taken, cut, shows⟩ := Text.ahead_cut rest
  obtain ⟨w, stopped, fails⟩ := stop_run ((sees.read cut).inBounds _) .unclosedComment
  have ran : step src .block (.on s pending k) = some (none, w) := by
    show stepBlock src _ = _
    rw [stepBlock, moving_bind (advance_run sees cut), Text.ahead_byte, zero]
    exact stopped
  have none : rest.takeWhile (· != 0) = [] := by
    cases shows with
    | done => rfl
    | @ascii b behind small =>
      rw [Text.shown_ascii small] at zero
      subst zero
      rfl
    | @wide b more behind wide =>
      rw [Text.shown_wide (wide b (by simp))] at zero
      exact absurd zero (by decide)
  rw [BlockEnds, none, List.append_nil, throughLastNewline_plain plain]
  exact .step ran (.here fails)

theorem block_stays {taken : Text} (sees : s.Sees src pending rest)
    (cut : rest = taken ++ (Text.ahead rest).2) (inside : inBlock (shown rest) = true) :
    step src .block (.on s pending k) =
      some (some .block, .on s (pending ++ taken) taken.length) := by
  obtain ⟨zero, newline, star⟩ := inBlock_iff.1 inside
  show stepBlock src _ = _
  rw [stepBlock, moving_bind (advance_run sees cut), Text.ahead_byte, if_neg newline, if_neg star,
    if_neg zero]
  rfl

theorem block_newline (sees : s.Sees src pending (0x0a :: rest)) (plain : 0x0a ∉ pending) :
    step src .block (.on s pending k) =
      some (some .block, .on (s.skip (pending ++ [0x0a])) [] 1) := by
  obtain ⟨u, byte, ran⟩ := advance_ascii sees (by decide) k
  show stepBlock src _ = _
  rw [stepBlock, moving_bind ran, byte]
  exact (moving_bind (newLine_run (sees.read rfl) plain)).trans rfl

theorem shown_eq_iff (nonzero : b ≠ 0) (small : b < 0x80) (t : Text) :
    shown t = b ↔ t.head? = some b := by
  have same := (Alike.beq nonzero small).shown t
  rw [← beq_iff_eq, same]
  cases t <;> simp

/-- A star closes the comment if a slash follows. -/
theorem block_star (sees : s.Sees src pending (0x2a :: rest)) (plain : 0x0a ∉ pending) :
    (rest.head? = some 0x2f → step src .block (.on s pending k) =
      some (some .global, .on (s.skip (pending ++ [0x2a, 0x2f])) [] 1)) ∧
    (rest.head? ≠ some 0x2f → ∃ k', step src .block (.on s pending k) =
      some (some .block, .on s (pending ++ [0x2a]) k')) := by
  obtain ⟨u, same, ran⟩ := advance_ascii sees (by decide) k
  have behind : s.Sees src (pending ++ [0x2a]) rest := sees.read rfl
  obtain ⟨k', looked⟩ := lookAhead_run behind 1
  have slash := shown_eq_iff (b := 0x2f) (by decide) (by decide) rest
  have start : step src .block (.on s pending k) =
      (if shown rest = 0x2f then do
        let _ ← advance src
        Lexer.skip src
        return some Mode.global
      else return some Mode.block) (.on s (pending ++ [0x2a]) k') := by
    show stepBlock src _ = _
    rw [stepBlock, moving_bind ran, same]
    exact moving_bind looked
  refine ⟨fun next => ?_, fun other => ⟨k', ?_⟩⟩
  · cases rest with
    | nil => cases next
    | cons c rest =>
      cases next
      have further : s.Sees src (pending ++ [0x2a] ++ [0x2f]) rest := behind.read rfl
      rw [List.append_assoc] at further
      obtain ⟨v, -, took⟩ := advance_ascii behind (by decide) k'
      rw [List.append_assoc] at took
      rw [start, if_pos (slash.2 rfl)]
      refine (moving_bind took).trans ((moving_bind (skip_run further ?_)).trans rfl)
      exact notMem_append plain (by decide)
  · rw [start, if_neg (fun shows => other (slash.1 shows))]
    rfl

/-- A block comment is skipped to its end, from one byte that is special to the next. -/
theorem block_leads (sees : s.Sees src pending rest) (plain : 0x0a ∉ pending) :
    Leads src ⟨some .block, .on s pending k⟩
      (BlockEnds src s pending rest (blockCommentLength? rest)) := by
  induction size : rest.length using Nat.strong_induction_on generalizing s pending rest k with
  | h n ih =>
    refine through alike_inBlock block_stays sees fun k => ?_
    have length := blockCommentLength?_through (fun d => List.mem_takeWhile_imp (p := inBlock) (l := rest))
      (rest.dropWhile inBlock)
    have cut := (List.takeWhile_append_dropWhile (p := inBlock) (l := rest)).symm
    have free := notMem_append plain (notMem_takeWhile (f := inBlock) (b := 0x0a) (by decide) rest)
    have last := (alike_inBlock.shown _).symm.trans (alike_inBlock.dropWhile rest)
    have behind := sees_dropWhile inBlock sees
    rw [← cut] at length
    rw [length]
    refine Leads.imp ?_ fun c ends => blockEnds_read cut (notMem_takeWhile (by decide) rest) ends
    cases special : rest.dropWhile inBlock with
    | nil => exact block_stops (special ▸ behind) free Text.shown_nil
    | cons b rest' =>
      rw [special] at behind cut last
      have shorter : rest'.length < n := by
        rw [← size, cut, List.length_append, List.length_cons]
        omega
      have known : b = 0 ∨ b = 0x0a ∨ b = 0x2a := by simpa [inBlock, or_iff_not_imp_left] using last
      rcases known with rfl | rfl | rfl
      · exact block_stops behind free (Text.shown_ascii (by decide) rest')
      · -- The comment goes on from a spot in the next line.
        rw [blockCommentLength?_read (by decide) (by simp)]
        refine .step (block_newline behind free) (Leads.imp ?_ fun c => blockEnds_line)
        exact ih _ shorter (Sees.skip (behind.read rfl)) (by simp) rfl
      · obtain ⟨closes, stays⟩ := block_star (k := k) behind free
        by_cases slash : rest'.head? = some 0x2f
        · rw [blockCommentLength?, if_neg (by decide), if_pos ⟨rfl, slash⟩]
          refine .step (closes slash) (.here ?_)
          cases rest' with
          | nil => cases slash
          | cons c rest' =>
            cases slash
            exact ⟨_, rfl⟩
        · obtain ⟨k', stayed⟩ := stays slash
          rw [blockCommentLength?_read (by decide) (by simp [slash])]
          have cut : 0x2a :: rest' = [0x2a] ++ rest' := rfl
          refine .step stayed (Leads.imp ?_ fun c => blockEnds_read cut (by decide))
          exact ih _ shorter (behind.read rfl) (notMem_append free (by decide)) rfl

/-! ## Marks -/

/-- Punctuation is made of ASCII characters. -/
theorem double?_ascii {b c : UInt8} {p : Punct} (found : Punct.double? b c = some p) :
    b < 0x80 ∧ c < 0x80 ∧ c ≠ 0 ∧ c ≠ 0x0a ∧ p.spelling = [b, c] := by
  have table : ∀ q : Punct, q.spelling.all (fun d => decide (d < 0x80 ∧ d ≠ 0 ∧ d ≠ 0x0a)) = true := by
    intro q
    cases q <;> decide
  have spelled : p.spelling = [b, c] := by simpa using List.find?_some found
  have known := table p
  rw [spelled] at known
  simp only [List.all_cons, List.all_nil, Bool.and_true, Bool.and_eq_true, decide_eq_true_eq] at known
  exact ⟨known.1.1, known.2.1, known.2.2.1, known.2.2.2, spelled⟩

theorem single?_ascii {p : Punct} (found : Punct.single? b = some p) : b < 0x80 := by
  have table : ∀ q : Punct, q.spelling.all (fun d => decide (d < 0x80)) = true := by
    intro q
    cases q <;> decide
  have spelled : p.spelling = [b] := by simpa using List.find?_some found
  have known := table p
  rw [spelled] at known
  simpa using known

/-- Whether two units are a mark is seen from the bytes. -/
theorem double?_shown (b : UInt8) (t : Text) :
    Punct.double? b (shown t) = t.head?.bind (Punct.double? b) := by
  have none : ∀ c : UInt8, ¬ (c < 0x80 ∧ c ≠ 0) → Punct.double? b c = none := by
    intro c other
    refine Option.eq_none_iff_forall_ne_some.2 fun p found => ?_
    obtain ⟨-, small, nonzero, -⟩ := double?_ascii found
    exact other ⟨small, nonzero⟩
  cases t with
  | nil =>
    rw [Text.shown_nil, none 0 (by simp)]
    rfl
  | cons c t =>
    by_cases small : c < 0x80
    · rw [Text.shown_ascii small]
      rfl
    · rw [Text.shown_wide (UInt8.not_lt.1 small), none 0xff (by decide), List.head?_cons,
        Option.bind_some, none c fun ascii => small ascii.1]

theorem punct_wide (large : 0x80 ≤ b) : (∀ c, Punct.double? b c = none) ∧ Punct.single? b = none :=
  ⟨fun _ => Option.eq_none_iff_forall_ne_some.2 fun _ found => UInt8.not_le.2 (double?_ascii found).1 large,
    Option.eq_none_iff_forall_ne_some.2 fun _ found => UInt8.not_le.2 (single?_ascii found) large⟩

/-- A mark is read as the lexer reads it. -/
theorem mark_leads (sees : s.Sees src [b] rest) (small : b < 0x80) (newline : b ≠ 0x0a) :
    ∃ next w, stepMark src (Text.firstUnit b rest).1 (Text.ahead rest).1 (.on s [b] k) = some (next, w) ∧
      Leads src ⟨next, w⟩ (Outcome src s b rest (punctPiece b rest)) := by
  have plain : 0x0a ∉ [b] := by simpa using newline.symm
  rw [stepMark, (Text.firstUnit_ascii small rest).2, Text.ahead_byte, double?_shown, punctPiece]
  cases two : rest.head?.bind (Punct.double? b) with
  | some p =>
    cases rest with
    | nil => cases two
    | cons c after =>
      obtain ⟨-, wide, -, other, -⟩ := double?_ascii two
      obtain ⟨v, -, took⟩ := advance_ascii sees wide k
      have behind : s.Sees src ([b] ++ [c]) after := sees.read rfl
      obtain ⟨w, ran, later⟩ := emit_leads (k := 1) behind
        (notMem_append plain (by simpa using other.symm)) (.punct p)
      exact ⟨_, w, (moving_bind took).trans ran, later⟩
  | none =>
    cases Punct.single? b with
    | some p =>
      obtain ⟨w, ran, later⟩ := emit_leads (k := k) sees plain (.punct p)
      exact ⟨_, w, ran, later⟩
    | none =>
      obtain ⟨w, stopped, fails⟩ := stop_run (sees.inBounds k) (.unexpected (Text.firstUnit b rest).1)
      exact ⟨_, w, stopped, .here fails⟩

/-! ## Between tokens -/

theorem alike_isSpace : Alike isSpace where
  zero := by decide
  wide b large := by simp [isSpace, Text.ne_of_wide large]

/-- What starts with a byte beyond ASCII is no piece. -/
theorem wide_leads (large : 0x80 ≤ b) (sees : s.Sees src [] (b :: rest)) :
    Leads src ⟨some .global, .on s [] k⟩ (Outcome src s b rest (piece b rest)) := by
  have same : piece b rest = .error ⟨.unexpected (Text.firstUnit b rest).1, []⟩ := by
    rw [piece_punct ((alike_isWord.wide b large).trans (by decide))
      ((alike_isSpace.wide b large).trans (by decide)) (Text.ne_of_wide large (by decide)), punctPiece,
      (punct_wide large).2]
    · cases rest <;> simp [(punct_wide large).1]
    · rw [startsComment_cons]
      simp [Text.ne_of_wide large]
  obtain ⟨taken, cut, -⟩ := Text.ahead_cut (b :: rest)
  have byte : (Text.ahead (b :: rest)).1.byte = 0xff := Text.shown_wide large rest
  obtain ⟨k', looked⟩ := lookAhead_run (sees.read cut) taken.length
  obtain ⟨w, stopped, fails⟩ := stop_run ((sees.read cut).inBounds k')
    (.unexpected (Text.firstUnit b rest).1)
  have start : step src .global (.on s [] k) = _ := moving_bind (advance_run sees cut)
  rw [byte] at start
  rw [same]
  refine .step (start.trans ?_) (.here fails)
  show stepOther src _ _ = _
  rw [stepOther, moving_bind looked, byte, if_neg (by simp), if_neg (by simp), stepMark, byte,
    (punct_wide (by decide)).1, (punct_wide (by decide)).2]
  exact stopped

/-- A slash may start a comment; what is no comment is a mark. -/
theorem other_leads (sees : s.Sees src [b] rest) (small : b < 0x80) (newline : b ≠ 0x0a) :
    ∃ next w, stepOther src (Text.ahead (b :: rest)).1 (.on s [b] k) = some (next, w) ∧
      Leads src ⟨next, w⟩ (Outcome src s b rest
        (if b = 0x2f ∧ rest.head? = some 0x2f then .ok ⟨.gap, lineCommentLength rest⟩
        else if b = 0x2f ∧ rest.head? = some 0x2a then blockCommentPiece b rest
        else punctPiece b rest)) := by
  have byte : (Text.ahead (b :: rest)).1.byte = b := Text.shown_ascii small rest
  obtain ⟨k', looked⟩ := lookAhead_run sees k
  rw [stepOther, moving_bind looked, byte, Text.ahead_byte]
  simp only [shown_eq_iff (b := 0x2f) (by decide) (by decide),
    shown_eq_iff (b := 0x2a) (by decide) (by decide)]
  by_cases comment : b = 0x2f ∧ rest.head? = some 0x2f
  · rw [if_pos comment, if_pos comment]
    exact ⟨_, _, rfl, line_leads sees (by simpa using newline.symm)⟩
  rw [if_neg comment, if_neg comment]
  by_cases long : b = 0x2f ∧ rest.head? = some 0x2a
  · rw [if_pos long, if_pos long]
    obtain ⟨rfl, opens⟩ := long
    obtain ⟨after, rfl⟩ := List.head?_eq_some_iff.1 opens
    obtain ⟨u, -, took⟩ := advance_ascii sees (by decide) k'
    refine ⟨_, _, (moving_bind took).trans rfl,
      (block_leads (sees.read rfl) (by decide)).imp fun c ends => ?_⟩
    rw [blockCommentPiece, List.tail_cons]
    cases found : blockCommentLength? after <;> rw [found] at ends <;> exact ends
  · rw [if_neg long, if_neg long]
    exact mark_leads sees small newline

/-- A piece is read from the mode between tokens, which goes by its first byte. -/
theorem piece_leads (nonzero : b ≠ 0) (sees : s.Sees src [] (b :: rest)) :
    Leads src ⟨some .global, .on s [] k⟩ (Outcome src s b rest (piece b rest)) := by
  by_cases small : b < 0x80
  swap
  · exact wide_leads (UInt8.not_lt.1 small) sees
  have behind : s.Sees src [b] rest := sees.read rfl
  have cut : b :: rest = [b] ++ (Text.ahead (b :: rest)).2 := by
    rw [Text.ahead, (Text.firstUnit_ascii small rest).1, List.singleton_append]
  have byte : (Text.ahead (b :: rest)).1.byte = b := Text.shown_ascii small rest
  have start : step src .global (.on s [] k) = _ := moving_bind (advance_run sees cut)
  rw [byte, List.nil_append, List.length_singleton] at start
  rw [piece]
  -- The machine asks the same of the first byte as the lexer, but tells line ends from spaces.
  by_cases letter : isAlpha b = true
  · have newline : 0x0a ∉ [b] := fun member => by
      rw [← List.mem_singleton.1 member] at letter
      exact absurd letter (by decide)
    rw [if_pos letter] at start ⊢
    refine .step start ((word_leads behind newline).imp fun c made => ?_)
    simp only [Outcome, Spot.behind, take_takeWhile, TokenKind.value, if_neg ofWord_ne_string]
    exact made
  rw [if_neg letter] at start ⊢
  by_cases digit : isDigit b = true
  · rw [if_pos digit] at start ⊢
    exact .step start (number_leads digit behind)
  rw [if_neg digit] at start ⊢
  by_cases newline : b = 0x0a
  · subst newline
    rw [if_pos rfl] at start
    rw [if_pos (by decide)]
    exact .step (start.trans ((moving_bind (newLine_run (t := []) behind (by simp))).trans rfl))
      (.here ⟨_, rfl⟩)
  have plain : 0x0a ∉ [b] := by simpa using Ne.symm newline
  rw [if_neg newline] at start
  by_cases space : isSpace b = true
  · rw [if_pos space] at start ⊢
    exact .step (start.trans ((moving_bind (skip_run behind plain)).trans rfl)) (.here ⟨_, rfl⟩)
  rw [if_neg space] at start ⊢
  by_cases quote : b = 0x22
  · rw [if_pos quote] at start ⊢
    refine .step start ((string_leads behind (by simp) plain).imp fun c ends => ?_)
    cases found : stringLength? rest <;> rw [found] at ends <;> exact ends
  rw [if_neg quote] at start ⊢
  by_cases hash : b = 0x23
  · rw [if_pos hash] at start
    rw [if_pos (.inl hash)]
    exact .step start (line_leads behind plain)
  obtain ⟨next, w, ran, later⟩ := other_leads (k := 1) behind small newline
  rw [if_neg hash, if_neg nonzero] at start
  simp only [hash, false_or]
  exact .step (start.trans ran) later

def Answers (src : Text) (a : Except LexError (List Token)) (c : Config) : Prop :=
  c.mode = none ∧ c.window.InBounds src ∧ c.window.answer = a

/-- The machine stops at the end of the source, which is its last token. -/
theorem end_leads (taken : Text) (sees : s.Sees src [] rest)
    (cut : rest = taken ++ (Text.ahead rest).2) (zero : shown rest = 0) (plain : 0x0a ∉ taken) :
    Leads src ⟨some .global, .on s [] k⟩
      (Answers src (.ok (s.tokens ++ [⟨.eof, taken, s.place⟩]))) := by
  have behind : s.Sees src taken _ := sees.read cut
  have start : step src .global (.on s [] k) = _ := moving_bind (advance_run sees cut)
  rw [Text.ahead_byte, zero] at start
  exact .step (start.trans ((moving_bind (emit_run behind plain .eof)).trans rfl))
    (.here ⟨rfl, behind.skip.inBounds taken.length, rfl⟩)

/-- The tokens behind a piece come after the token that it is. -/
theorem scan_piece {form : Form} {more : Nat} (nonzero : b ≠ 0)
    (found : piece b rest = .ok ⟨form, more⟩) (s : Spot) :
    (scan (b :: rest) s.place).map (s.tokens ++ ·) =
      (scan (rest.drop more) (s.behind form (b :: rest.take more)).place).map
        ((s.behind form (b :: rest.take more)).tokens ++ ·) := by
  rw [scan, if_neg nonzero, found]
  cases form <;> simp only [Spot.behind, Spot.skip, Spot.take] <;>
    cases scan (rest.drop more) (s.place.advance (b :: rest.take more)) <;> simp [Except.map]

/-- The machine reads what the lexer reads. -/
theorem scan_leads (sees : s.Sees src [] rest) :
    Leads src ⟨some .global, .on s [] k⟩
      (Answers src ((scan rest s.place).map (s.tokens ++ ·))) := by
  induction size : rest.length using Nat.strong_induction_on generalizing s rest k with
  | h n ih =>
    cases rest with
    | nil =>
      rw [scan]
      exact end_leads [] sees rfl Text.shown_nil (by simp)
    | cons b rest =>
      by_cases zero : b = 0
      · subst zero
        rw [scan, if_pos rfl]
        exact end_leads [0] sees rfl (Text.shown_ascii (by decide) rest) (by decide)
      have leads := piece_leads (k := k) zero sees
      cases found : piece b rest with
      | error f =>
        rw [found] at leads
        refine leads.imp fun c fails => ⟨fails.1, fails.2.1, ?_⟩
        rw [Window.answer, fails.2.2, scan, if_neg zero, found]
        rfl
      | ok q =>
        rw [found] at leads
        refine leads.trans fun c between => ?_
        obtain ⟨k', rfl⟩ := between
        rw [scan_piece zero found]
        refine ih _ ?_ ?_ rfl
        · rw [← size, List.length_drop, List.length_cons]
          omega
        · have front : (s.behind q.form (b :: rest.take q.more)).front =
              s.front ++ (b :: rest.take q.more) := by cases q.form <;> rfl
          rw [Sees, front, List.nil_append, List.append_assoc, List.cons_append,
            List.take_append_drop]
          exact sees

end Modes

/-! ## Runs from the start -/

section Runs

variable {src : Text}

theorem Goes.unique : Relator.RightUnique (Goes src) := by
  rintro _ _ _ ⟨ran⟩ ⟨ran'⟩
  cases ran.symm.trans ran'
  rfl

theorem advance_inBounds {α : Type} {f : Text.CodeUnit → Moving α} {w : Window} {r : α × Window}
    (ran : (advance src >>= f) w = some r) : w.InBounds src := by
  by_contra outside
  have stuck : moveTo src w w = none := if_neg outside
  have none : (advance src >>= f) w = ((moveTo src w w).bind _).bind _ := rfl
  rw [stuck] at none
  cases none.symm.trans ran

/-- A step starts with reading a unit, so the window it starts from lies in the source. -/
theorem Goes.inBounds {c d : Config} (goes : Goes src c d) : c.window.InBounds src := by
  obtain ⟨ran⟩ := goes
  rename_i m _ _ _
  cases m <;> exact advance_inBounds ran

/-- Every source is read to the end, with the answer of the lexer. Wherever the machine gets,
its window lies in the source, and from there it goes on to the end. -/
theorem machine_reads (src : Text) : ∃ w : Window, w.answer = tokens src ∧
    ∀ c, Runs src .start c → c.window.InBounds src ∧ Runs src c ⟨none, w⟩ := by
  have sees : Sees ⟨[], Pos.start, []⟩ src [] src := rfl
  obtain ⟨⟨_, w⟩, whole, rfl, inside, answers⟩ := scan_leads (k := 0) sees
  refine ⟨w, ?_, fun c reached => ?_⟩
  · rw [answers, tokens]
    cases scan src Pos.start <;> rfl
  have ends : ∀ {d}, Runs src ⟨none, w⟩ d → d = ⟨none, w⟩ := by
    intro d runs
    rcases runs.cases_head with same | ⟨e, goes, -⟩
    · exact same.symm
    · cases goes
  -- There is only one run, so `c` comes before the end of it, or is the end.
  rcases Relation.ReflTransGen.total_of_right_unique Goes.unique reached whole with later | later
  · refine ⟨?_, later⟩
    rcases later.cases_head with rfl | ⟨d, goes, -⟩
    · exact inside
    · exact goes.inBounds
  · rw [ends later]
    exact ⟨inside, .refl⟩

end Runs

end ImpCompiler.Lexer
