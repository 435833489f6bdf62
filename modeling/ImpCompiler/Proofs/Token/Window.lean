import ImpCompiler.Proofs.Token.Layout
import Mathlib.Logic.Relation

/-!
# Proofs.Token.Window — the lexer as a machine of modes

The lexer can also be run unit by unit. A window on the source lies between the start of what
is pending and the place of reading; every move of it and every slice of the source is
checked, and the machine gets stuck as soon as one is out of range. In each mode it reads
one unit, or a few to look ahead, and goes on in the same mode or in another. A unit that was
read too far is given back by the width that the window remembers.

The modes are those of words, numbers, strings and comments. A number has three, one for
each run of digits in it, so that no step of the machine contains a loop.
-/

namespace ImpCompiler

set_option autoImplicit false

/-! ## Units -/

namespace Text

/-- The first unit of a text and the text behind it. The end of a text shows as a zero that
takes no room. -/
def ahead : Text → CodeUnit × Text
  | [] => (.scalar (Char.ofNat 0), [])
  | b :: rest => firstUnit b rest

/-- The byte that a unit is compared as. All units beyond ASCII are alike. -/
def CodeUnit.byte : CodeUnit → UInt8
  | .scalar c => if c.toNat < 0x80 then c.toNat.toUInt8 else 0xff
  | .stray _ => 0xff

/-- The byte that the first unit of a text is compared as. -/
def shown (t : Text) : UInt8 := (ahead t).1.byte

end Text

namespace Lexer

open Text (CodeUnit)

/-! ## The window -/

/-- What the machine keeps: the offsets where the pending text starts and where reading
goes on, the bytes of the last unit, the place of the start, the tokens and the error found. -/
structure Window where
  start : Nat
  pos : Nat
  width : Nat
  place : Pos
  tokens : List Token
  error : Option LexError

def Window.InBounds (src : Text) (w : Window) : Prop := w.start ≤ w.pos ∧ w.pos ≤ src.length

instance (src : Text) (w : Window) : Decidable (w.InBounds src) :=
  inferInstanceAs (Decidable (_ ∧ _))

def Window.answer (w : Window) : Except LexError (List Token) :=
  match w.error with
  | some e => .error e
  | none => .ok w.tokens

/-- Steps that move a window. There is no answer if one is out of range. -/
abbrev Moving := StateT Window Option

section Moves

variable (src : Text)

def slice (i j : Nat) : Moving Text := fun w =>
  if i ≤ j ∧ j ≤ src.length then some ((src.take j).drop i, w) else none

/-- Puts the window where it has to stay inside the source. -/
def moveTo (w : Window) : Moving Unit := fun _ => if w.InBounds src then some ((), w) else none

/-- Reads the next unit behind the window, which has to lie in the source. -/
def advance : Moving CodeUnit := do
  let w ← get
  moveTo src w
  if src.length ≤ w.pos then
    moveTo src { w with width := 0 }
    return (Text.ahead []).1
  else
    let rest ← slice src w.pos src.length
    let width := rest.length - (Text.ahead rest).2.length
    moveTo src { w with pos := w.pos + width, width := width }
    return (Text.ahead rest).1

/-- Gives the last unit back, unless nothing is pending. -/
def backup : Moving Unit := do
  let w ← get
  if w.start < w.pos then
    if w.width ≤ w.pos then moveTo src { w with pos := w.pos - w.width } else fun _ => none

/-- The next unit, which is not taken. -/
def lookAhead : Moving CodeUnit := do
  let u ← advance src
  backup src
  return u

/-- Takes the next unit if it has the property, and says whether it has. -/
def accept (f : UInt8 → Bool) : Moving Bool := do
  if f (← advance src).byte then return true
  backup src
  return false

def pendingText : Moving Text := do
  let w ← get
  slice src w.start w.pos

def skip : Moving Unit := do
  let t ← pendingText src
  let w ← get
  moveTo src { w with start := w.pos, place := ⟨w.place.line, w.place.col + t.length⟩ }

/-- Skips the pending text and goes to the start of the next line. -/
def newLine : Moving Unit := do
  let w ← get
  moveTo src { w with start := w.pos, place := ⟨w.place.line + 1, 1⟩ }

def emitValue (kind : TokenKind) (value : Text) : Moving Unit := do
  let w ← get
  moveTo src { w with tokens := w.tokens ++ [⟨kind, value, w.place⟩] }
  skip src

def emit (kind : TokenKind) : Moving Unit := do
  emitValue src kind (← pendingText src)

end Moves

/-! ## Modes -/

inductive Mode where
  | global
  | word
  | whole
  | places
  | exponent
  | string (escaped : Bool)
  | line
  | block
  deriving DecidableEq

def stop (cause : LexCause) : Moving (Option Mode) := do
  let w ← get
  set { w with error := some ⟨w.place, cause⟩ }
  return none

section Modes

variable (src : Text)

/-- Stays in the mode while units have the property, and then goes on in another way. -/
def stayWhile (f : UInt8 → Bool) (mode : Mode) (leave : Moving (Option Mode)) :
    Moving (Option Mode) := do
  if f (← advance src).byte then return some mode
  backup src
  leave

/-- A mark, the first unit of which has been read and the second looked at. -/
def stepMark (u v : CodeUnit) : Moving (Option Mode) :=
  match Punct.double? u.byte v.byte with
  | some p => do
    let _ ← advance src
    emit src (.punct p)
    return some .global
  | none =>
    match Punct.single? u.byte with
    | some p => do
      emit src (.punct p)
      return some .global
    | none => stop (.unexpected u)

/-- A comment that starts with a slash, or a mark. -/
def stepOther (u : CodeUnit) : Moving (Option Mode) := do
  let v ← lookAhead src
  if u.byte = 0x2f ∧ v.byte = 0x2f then return some .line
  else if u.byte = 0x2f ∧ v.byte = 0x2a then
    let _ ← advance src
    return some .block
  else stepMark src u v

/-- Between tokens. -/
def stepGlobal : Moving (Option Mode) := do
  let u ← advance src
  if isAlpha u.byte then return some .word
  else if isDigit u.byte then return some .whole
  else if u.byte = 0x0a then
    newLine src
    return some .global
  else if isSpace u.byte then
    skip src
    return some .global
  else if u.byte = 0x22 then return some (.string false)
  else if u.byte = 0x23 then return some .line
  else if u.byte = 0 then
    emit src .eof
    return none
  else stepOther src u

def leaveWord : Moving (Option Mode) := do
  emit src (.ofWord (← pendingText src))
  return some .global

def pointAhead : Moving Bool := do
  let w ← get
  if w.pos + 1 < src.length then
    let t ← slice src w.pos (w.pos + 2)
    return t.head? == some 0x2e && t.tail.head?.any isDigit
  else return false

/-- Behind the first digits of a number. -/
def leaveWhole : Moving (Option Mode) := do
  if ← pointAhead src then
    let _ ← advance src
    return some .places
  if isAlpha (← lookAhead src).byte then
    let w ← get
    stop (.malformedNumber (← slice src w.start (w.pos + 1)))
  else
    emit src .integer
    return some .global

def isMark (b : UInt8) : Bool := b == 0x65 || b == 0x45

def isSign (b : UInt8) : Bool := b == 0x2b || b == 0x2d

/-- Behind the digits after the point. -/
def leavePlaces : Moving (Option Mode) := do
  if ← accept src isMark then
    let _ ← accept src isSign
    if isDigit (← lookAhead src).byte then return some .exponent
    else stop (.malformedExponent (← pendingText src))
  else
    emit src .double
    return some .global

def leaveExponent : Moving (Option Mode) := do
  emit src .double
  return some .global

def stepString (escaped : Bool) : Moving (Option Mode) := do
  let b := (← advance src).byte
  if b = 0 ∨ b = 0x0a then stop .unclosedString
  else if escaped then return some (.string false)
  else if b = 0x5c then return some (.string true)
  else if b = 0x22 then
    let w ← get
    emitValue src .string (← slice src (w.start + 1) (w.pos - 1))
    return some .global
  else return some (.string false)

def stepLine : Moving (Option Mode) := do
  let b := (← advance src).byte
  if b = 0x0a then
    newLine src
    return some .global
  else if b = 0 then
    skip src
    return some .global
  else return some .line

def stepBlock : Moving (Option Mode) := do
  let b := (← advance src).byte
  if b = 0x0a then
    newLine src
    return some .block
  else if b = 0x2a then
    if (← lookAhead src).byte = 0x2f then
      let _ ← advance src
      skip src
      return some .global
    else return some .block
  else if b = 0 then stop .unclosedComment
  else return some .block

/-- One step of the machine: the next mode, or none if it stops. -/
def step : Mode → Moving (Option Mode)
  | .global => stepGlobal src
  | .word => stayWhile src isWord .word (leaveWord src)
  | .whole => stayWhile src isDigit .whole (leaveWhole src)
  | .places => stayWhile src isDigit .places (leavePlaces src)
  | .exponent => stayWhile src isDigit .exponent (leaveExponent src)
  | .string escaped => stepString src escaped
  | .line => stepLine src
  | .block => stepBlock src

/-- Where the machine is: its mode, none if it has stopped, and its window. -/
structure Config where
  mode : Option Mode
  window : Window

def Config.start : Config := ⟨some .global, ⟨0, 0, 0, Pos.start, [], none⟩⟩

inductive Goes : Config → Config → Prop
  | mk {mode : Mode} {w w' : Window} {next : Option Mode} : step src mode w = some (next, w') →
      Goes ⟨some mode, w⟩ ⟨next, w'⟩

def Runs : Config → Config → Prop := Relation.ReflTransGen (Goes src)

end Modes

end Lexer

/-! ## Units that are not ASCII -/

namespace Text

variable {b : UInt8}

theorem scalar?_some {least n : Nat} {c : Char} (found : scalar? least n = some c) :
    least ≤ c.toNat := by
  obtain ⟨valid, ⟨⟩⟩ := Option.dite_none_right_eq_some.1 found
  exact valid.1

theorem continuation?_some {x : Nat} (found : continuation? b = some x) : 0x80 ≤ b :=
  (Option.ite_none_right_eq_some.1 found).1.1

/-- An ASCII byte is a character of its own. -/
theorem firstUnit_ascii (small : b < 0x80) (rest : Text) :
    (firstUnit b rest).2 = rest ∧ (firstUnit b rest).1.byte = b := by
  have few : b.toNat < 0x80 := small
  have valid : 0 ≤ b.toNat ∧ b.toNat.isValidChar := ⟨Nat.zero_le _, .inl (by omega)⟩
  obtain ⟨c, found, number⟩ : ∃ c, scalar? 0 b.toNat = some c ∧ c.toNat = b.toNat :=
    ⟨Char.ofNatAux b.toNat valid.2, dif_pos valid, rfl⟩
  simp only [firstUnit, decodeChar?, if_pos small, found, Option.map_some]
  refine ⟨List.drop_zero, ?_⟩
  rw [CodeUnit.byte, number, if_pos few]
  simp

/-- The bytes of a code point beyond ASCII are all beyond ASCII. -/
theorem decodeChar?_wide {rest : Text} {c : Char} {n : Nat} (large : 0x80 ≤ b)
    (found : decodeChar? (b :: rest) = some (c, n)) :
    0x80 ≤ c.toNat ∧ ∃ more, rest = more ++ rest.drop (n - 1) ∧ ∀ d ∈ more, 0x80 ≤ d := by
  simp only [decodeChar?, if_neg (UInt8.not_lt.2 large)] at found
  split at found
  · split at found
    · rename_i d after
      obtain ⟨x, cont, found⟩ := Option.bind_eq_some_iff.1 found
      obtain ⟨u, valid, ⟨⟩⟩ := Option.bind_eq_some_iff.1 found
      exact ⟨scalar?_some valid, [d], rfl, by simpa using continuation?_some cont⟩
    · cases found
  split at found
  · split at found
    · rename_i d e after
      obtain ⟨x, first, found⟩ := Option.bind_eq_some_iff.1 found
      obtain ⟨y, second, found⟩ := Option.bind_eq_some_iff.1 found
      obtain ⟨u, valid, ⟨⟩⟩ := Option.bind_eq_some_iff.1 found
      refine ⟨Nat.le_trans (by decide) (scalar?_some valid), [d, e], rfl, ?_⟩
      simpa using ⟨continuation?_some first, continuation?_some second⟩
    · cases found
  split at found
  · split at found
    · rename_i d e f after
      obtain ⟨x, first, found⟩ := Option.bind_eq_some_iff.1 found
      obtain ⟨y, second, found⟩ := Option.bind_eq_some_iff.1 found
      obtain ⟨z, third, found⟩ := Option.bind_eq_some_iff.1 found
      obtain ⟨u, valid, ⟨⟩⟩ := Option.bind_eq_some_iff.1 found
      refine ⟨Nat.le_trans (by decide) (scalar?_some valid), [d, e, f], rfl, ?_⟩
      simpa using ⟨continuation?_some first, continuation?_some second, continuation?_some third⟩
    · cases found
  · cases found

/-- A character beyond ASCII is seen as the byte `0xff`. -/
theorem firstUnit_wide (large : 0x80 ≤ b) (rest : Text) :
    (firstUnit b rest).1.byte = 0xff ∧
      ∃ more, rest = more ++ (firstUnit b rest).2 ∧ ∀ d ∈ more, 0x80 ≤ d := by
  unfold firstUnit
  split
  · rename_i c n found
    obtain ⟨high, more⟩ := decodeChar?_wide large found
    exact ⟨if_neg (Nat.not_lt.2 high), more⟩
  · exact ⟨rfl, [], rfl, by simp⟩

/-- What the next unit of a text takes of it: nothing at its end, a byte of ASCII, or some
bytes beyond ASCII. -/
inductive Cut : Text → Text → Prop
  | done : Cut [] []
  | ascii {b : UInt8} {rest : Text} : b < 0x80 → Cut (b :: rest) [b]
  | wide {b : UInt8} {more rest : Text} : (∀ d ∈ b :: more, 0x80 ≤ d) →
      Cut (b :: (more ++ rest)) (b :: more)

/-- Looking ahead takes one whole character. -/
theorem ahead_cut (t : Text) : ∃ taken, t = taken ++ (ahead t).2 ∧ Cut t taken := by
  cases t with
  | nil => exact ⟨[], rfl, .done⟩
  | cons b rest =>
    by_cases small : b < 0x80
    · refine ⟨[b], ?_, .ascii small⟩
      rw [ahead, (firstUnit_ascii small rest).1, List.singleton_append]
    · have large := UInt8.not_lt.1 small
      obtain ⟨-, more, behind, wide⟩ := firstUnit_wide large rest
      refine ⟨b :: more, by rw [ahead, List.cons_append, ← behind], ?_⟩
      rw [behind]
      exact .wide (List.forall_mem_cons.2 ⟨large, wide⟩)

theorem ahead_byte (t : Text) : (ahead t).1.byte = shown t := rfl

theorem shown_nil : shown [] = 0 := by decide

theorem shown_ascii (small : b < 0x80) (rest : Text) : shown (b :: rest) = b :=
  (firstUnit_ascii small rest).2

theorem shown_wide (large : 0x80 ≤ b) (rest : Text) : shown (b :: rest) = 0xff :=
  (firstUnit_wide large rest).1

theorem ne_of_wide {b k : UInt8} (large : 0x80 ≤ b) (small : k < 0x80) : b ≠ k := by
  rintro rfl
  exact UInt8.not_le.2 small large

/-- A property that zero lacks and in which the bytes beyond ASCII are alike. -/
structure Alike (f : UInt8 → Bool) : Prop where
  zero : f 0 = false
  wide : ∀ b, 0x80 ≤ b → f b = f 0xff

namespace Alike

variable {f g : UInt8 → Bool}

/-- Whether the next unit has such a property is seen from the next byte. -/
theorem shown (alike : Alike f) (t : Text) : f (shown t) = t.head?.any f := by
  cases t with
  | nil =>
    rw [shown_nil, alike.zero]
    rfl
  | cons b rest =>
    by_cases small : b < 0x80
    · rw [shown_ascii small]
      rfl
    · have large := UInt8.not_lt.1 small
      rw [shown_wide large, List.head?_cons, Option.any_some, alike.wide b large]

/-- A unit has such a property if all bytes of it have. -/
theorem taken (alike : Alike f) {t taken : Text} (cut : Cut t taken) (holds : f (Text.shown t) = true) :
    taken ≠ [] ∧ ∀ b ∈ taken, f b = true := by
  cases cut with
  | done =>
    rw [shown_nil, alike.zero] at holds
    cases holds
  | @ascii b rest small =>
    rw [shown_ascii small] at holds
    simpa using holds
  | @wide b more rest wide =>
    rw [shown_wide (wide b (by simp))] at holds
    exact ⟨by simp, fun d member => (alike.wide d (wide d member)).trans holds⟩

theorem small (alike : Alike f) (none : f 0xff = false) {b : UInt8} (holds : f b = true) : b < 0x80 :=
  UInt8.not_le.1 fun large => Bool.noConfusion (holds.symm.trans ((alike.wide b large).trans none))

theorem dropWhile (alike : Alike f) (t : Text) : f (Text.shown (t.dropWhile f)) = false := by
  rw [alike.shown]
  induction t with
  | nil => rfl
  | cons b t ih => cases kept : f b <;> simp [kept, ih]

theorem or (first : Alike f) (second : Alike g) : Alike fun b => f b || g b where
  zero := by rw [first.zero, second.zero, Bool.or_false]
  wide b large := by rw [first.wide b large, second.wide b large]

theorem beq {k : UInt8} (nonzero : k ≠ 0) (small : k < 0x80) : Alike (· == k) where
  zero := beq_false_of_ne nonzero.symm
  wide b large := by
    rw [beq_false_of_ne (ne_of_wide large small), beq_false_of_ne (ne_of_wide (by decide) small)]

end Alike

end Text

/-- A text without line end stays on its line. -/
theorem Pos.advance_plain {t : Text} (plain : 0x0a ∉ t) (p : Pos) :
    p.advance t = ⟨p.line, p.col + t.length⟩ := by
  induction t generalizing p with
  | nil => simp [Pos.advance]
  | cons b t ih =>
    simp only [List.mem_cons, not_or] at plain
    show (p.step b).advance t = _
    rw [ih plain.2, Pos.step, if_neg (Ne.symm plain.1)]
    simp only [List.length_cons, Pos.mk.injEq, true_and]
    omega

theorem Pos.advance_line {t : Text} (plain : 0x0a ∉ t) (p : Pos) :
    p.advance (t ++ [0x0a]) = ⟨p.line + 1, 1⟩ := by
  rw [Pos.advance_append, Pos.advance_plain plain]
  rfl

namespace Lexer

/-! ## What the moves do -/

/-- What has been read before the pending text: the text, the place behind it, the tokens. -/
structure Spot where
  front : Text
  place : Pos
  tokens : List Token

/-- The window with the text `pending` behind the spot. -/
def Window.on (s : Spot) (pending : Text) (width : Nat) : Window :=
  ⟨s.front.length, s.front.length + pending.length, width, s.place, s.tokens, none⟩

namespace Spot

/-- The source goes on with `pending` and then `rest` behind the spot. -/
def Sees (s : Spot) (src pending rest : Text) : Prop := s.front ++ (pending ++ rest) = src

def skip (s : Spot) (t : Text) : Spot := ⟨s.front ++ t, s.place.advance t, s.tokens⟩

def take (s : Spot) (kind : TokenKind) (value t : Text) : Spot :=
  ⟨s.front ++ t, s.place.advance t, s.tokens ++ [⟨kind, value, s.place⟩]⟩

variable {s : Spot} {src pending rest : Text}

theorem Sees.read {taken behind : Text} (sees : s.Sees src pending rest)
    (cut : rest = taken ++ behind) : s.Sees src (pending ++ taken) behind := by
  rw [Sees, List.append_assoc, ← cut]
  exact sees

theorem Sees.back {taken : Text} (sees : s.Sees src (pending ++ taken) rest) :
    s.Sees src pending (taken ++ rest) := by
  rw [Sees, ← List.append_assoc pending]
  exact sees

theorem Sees.length (sees : s.Sees src pending rest) :
    src.length = s.front.length + pending.length + rest.length := by
  rw [← sees, List.length_append, List.length_append, Nat.add_assoc]

theorem Sees.inBounds (sees : s.Sees src pending rest) (k : Nat) :
    (Window.on s pending k).InBounds src := by
  have size := sees.length
  simp only [Window.InBounds, Window.on]
  omega

theorem Sees.skip (sees : s.Sees src pending rest) : (s.skip pending).Sees src [] rest := by
  show s.front ++ pending ++ rest = src
  rw [List.append_assoc]
  exact sees

end Spot

section Laws

open Spot

variable {α β : Type} {s : Spot} {src pending rest : Text} {k : Nat}

theorem moving_bind {x : Moving α} {f : α → Moving β} {w w' : Window} {a : α}
    (ran : x w = some (a, w')) : (x >>= f) w = f a w' := by
  show (x w >>= fun q => f q.1 q.2) = _
  rw [ran]
  rfl

theorem get_bind {f : Window → Moving β} {w : Window} : (get >>= f) w = f w w := rfl

theorem moveTo_run {v w w' : Window} (same : w = w') (inside : w'.InBounds src) :
    moveTo src w v = some ((), w') := by
  subst same
  exact if_pos inside

theorem slice_run {w : Window} {i j : Nat} (sees : s.Sees src pending rest) (less : i ≤ j)
    (inside : j ≤ (pending ++ rest).length) :
    slice src (s.front.length + i) (s.front.length + j) w =
      some (((pending ++ rest).take j).drop i, w) := by
  have size := sees.length
  rw [List.length_append] at inside
  rw [slice, if_pos ⟨by omega, by omega⟩, ← sees, List.take_length_add_append,
    List.drop_length_add_append]

theorem pendingText_run (sees : s.Sees src pending rest) :
    pendingText src (.on s pending k) = some (pending, .on s pending k) := by
  have cut := slice_run (w := .on s pending k) sees (Nat.zero_le pending.length) (by simp)
  rw [Nat.add_zero, List.take_left, List.drop_zero] at cut
  exact cut

/-- The window when the next unit is read. -/
theorem advance_run {taken : Text} (sees : s.Sees src pending rest)
    (cut : rest = taken ++ (Text.ahead rest).2) :
    advance src (.on s pending k) =
      some ((Text.ahead rest).1, .on s (pending ++ taken) taken.length) := by
  have inside := (sees.read cut).inBounds taken.length
  have size := sees.length
  rw [advance, get_bind, moving_bind (moveTo_run rfl (sees.inBounds k))]
  by_cases ends : rest = []
  · subst ends
    cases (List.append_eq_nil_iff.1 cut.symm).1
    rw [if_pos (by simp [size, Window.on])]
    exact (moving_bind (moveTo_run (by simp [Window.on]) inside)).trans rfl
  · have some := List.length_pos_iff.2 ends
    have ahead := slice_run (w := .on s pending k) (i := pending.length)
      (j := (pending ++ rest).length) sees (by simp) (Nat.le_refl _)
    rw [List.take_length, List.drop_left, List.length_append, ← Nat.add_assoc, ← size] at ahead
    have width : rest.length - (Text.ahead rest).2.length = taken.length := by
      have sizes := congrArg List.length cut
      rw [List.length_append] at sizes
      omega
    rw [if_neg (by simp only [size, Window.on]; omega)]
    refine (moving_bind ahead).trans ((moving_bind (moveTo_run ?_ inside)).trans rfl)
    simp [width, Window.on, Nat.add_assoc]

/-- A unit that was just read is given back. -/
theorem backup_run {taken : Text} (sees : s.Sees src (pending ++ taken) rest) :
    backup src (.on s (pending ++ taken) taken.length) = some ((), .on s pending taken.length) := by
  rw [backup, get_bind]
  by_cases nothing : (pending ++ taken).length = 0
  · obtain ⟨rfl, rfl⟩ := List.append_eq_nil_iff.1 (List.length_eq_zero_iff.1 nothing)
    rw [if_neg (by simp [Window.on])]
    rfl
  · rw [if_pos (by simp only [Window.on]; omega), if_pos (by simp [Window.on]; omega)]
    refine moveTo_run ?_ (sees.back.inBounds _)
    simp only [Window.on, List.length_append, Window.mk.injEq, and_true, true_and]
    omega

theorem advance_ascii {b : UInt8} {behind : Text} (sees : s.Sees src pending (b :: behind))
    (small : b < 0x80) (k : Nat) :
    ∃ u : Text.CodeUnit, u.byte = b ∧
      advance src (.on s pending k) = some (u, .on s (pending ++ [b]) 1) := by
  have cut : b :: behind = [b] ++ (Text.ahead (b :: behind)).2 := by
    rw [Text.ahead, (Text.firstUnit_ascii small behind).1, List.singleton_append]
  exact ⟨_, Text.shown_ascii small behind, advance_run sees cut⟩

theorem lookAhead_run (sees : s.Sees src pending rest) (k : Nat) :
    ∃ k', lookAhead src (.on s pending k) = some ((Text.ahead rest).1, .on s pending k') := by
  obtain ⟨taken, cut, -⟩ := Text.ahead_cut rest
  refine ⟨taken.length, ?_⟩
  rw [lookAhead, moving_bind (advance_run sees cut), moving_bind (backup_run (sees.read cut))]
  rfl

/-- Accepting a character reads it if the test allows it, and nothing else. -/
theorem accept_run {f : UInt8 → Bool} (alike : Text.Alike f) (ascii : f 0xff = false)
    (sees : s.Sees src pending rest) (k : Nat) :
    ∃ k', accept src f (.on s pending k) =
      some (rest.head?.any f, .on s (pending ++ rest.take (rest.head?.any f).toNat) k') := by
  obtain ⟨taken, cut, shows⟩ := Text.ahead_cut rest
  refine ⟨taken.length, ?_⟩
  rw [accept, moving_bind (advance_run sees cut), Text.ahead_byte, ← alike.shown]
  cases holds : f (Text.shown rest) with
  | false =>
    rw [if_neg (by decide), moving_bind (backup_run (sees.read cut))]
    simp
    rfl
  | true =>
    cases shows with
    | done => exact absurd holds (by rw [Text.shown_nil, alike.zero]; decide)
    | ascii small => rfl
    | wide wide => exact absurd holds (by rw [Text.shown_wide (wide _ (by simp)), ascii]; decide)

theorem skip_run (sees : s.Sees src pending rest) (plain : 0x0a ∉ pending) :
    skip src (.on s pending k) = some ((), .on (s.skip pending) [] k) := by
  rw [skip, moving_bind (pendingText_run sees), get_bind]
  refine moveTo_run ?_ (sees.skip.inBounds k)
  simp [Window.on, Spot.skip, Pos.advance_plain plain]

/-- The pending text is skipped with the line end that it ends in. -/
theorem newLine_run {t : Text} (sees : s.Sees src (t ++ [0x0a]) rest) (plain : 0x0a ∉ t) :
    newLine src (.on s (t ++ [0x0a]) k) = some ((), .on (s.skip (t ++ [0x0a])) [] k) := by
  rw [newLine, get_bind]
  refine moveTo_run ?_ (sees.skip.inBounds k)
  simp [Window.on, Spot.skip, Pos.advance_line plain]

theorem emitValue_run (sees : s.Sees src pending rest) (plain : 0x0a ∉ pending) (kind : TokenKind)
    (value : Text) :
    emitValue src kind value (.on s pending k) = some ((), .on (s.take kind value pending) [] k) := by
  have more : Sees ⟨s.front, s.place, s.tokens ++ [⟨kind, value, s.place⟩]⟩ src pending rest := sees
  rw [emitValue, get_bind]
  exact (moving_bind (moveTo_run rfl (more.inBounds k))).trans (skip_run more plain)

theorem emit_run (sees : s.Sees src pending rest) (plain : 0x0a ∉ pending) (kind : TokenKind) :
    emit src kind (.on s pending k) = some ((), .on (s.take kind pending pending) [] k) := by
  rw [emit, moving_bind (pendingText_run sees), emitValue_run sees plain]

end Laws

end Lexer

end ImpCompiler
