import ImpCompiler.Proofs.Basics
import ImpCompiler.Proofs.Token.Pieces
import Mathlib.Data.List.Induction

/-!
# Proofs.Token.Layout — tokens in their source

The tokens of a source stand in it in their order, at the places they name
(`tokens_stand_at_their_places`), and between them there is nothing but blanks and
comments (`tokens_leave_blanks_and_comments`). A zero byte is the end of a source, so the
second statement is about the text before the first one.
-/

namespace ImpCompiler

set_option autoImplicit false

/-! ## Places -/

theorem Text.afterLast_append (b c : UInt8) (t : Text) :
    Text.afterLast b (t ++ [c]) = if c = b then [] else Text.afterLast b t ++ [c] := by
  by_cases same : c = b <;> simp [Text.afterLast, same]

theorem Pos.advance_append (p : Pos) (t u : Text) : p.advance (t ++ u) = (p.advance t).advance u :=
  List.foldl_append

/-- The place behind a text at the start of a source: lines and bytes are counted from 1. -/
theorem Pos.start_advance (t : Text) :
    Pos.start.advance t = ⟨1 + t.count 0x0a, 1 + (Text.afterLast 0x0a t).length⟩ := by
  induction t using List.reverseRecOn with
  | nil => rfl
  | append_singleton t b ih =>
    rw [Pos.advance_append, ih, Text.afterLast_append, List.count_append]
    show Pos.step _ b = _
    by_cases newline : b = 0x0a
    · simp [Pos.step, newline, Int.add_assoc]
    · simp [Pos.step, newline, Int.add_assoc]

namespace Lexer

variable {p : Pos} {ts : List Token}

/-- The tokens of a source are `body` and the end of the file behind it. -/
structure Ended (ts body : List Token) (last : Token) : Prop where
  tokens : ts = body ++ [last]
  eof : last.kind = .eof
  others : ∀ t ∈ body, t.kind ≠ .eof

theorem Ended.cons {ts body : List Token} {t last : Token} (ended : Ended ts body last)
    (other : t.kind ≠ .eof) : Ended (t :: ts) (t :: body) last :=
  ⟨by rw [ended.tokens, List.cons_append], ended.eof, List.forall_mem_cons.2 ⟨other, ended.others⟩⟩

/-- The token `t` stands at the offset `o` of a source that starts at `p`. -/
def StandsAt (src : Text) (p : Pos) (t : Token) (o : Nat) : Prop :=
  t.spelling <+: src.drop o ∧ t.pos = p.advance (src.take o)

theorem StandsAt.behind {taken rest : Text} {t : Token} {o : Nat}
    (stands : StandsAt rest (p.advance taken) t o) :
    StandsAt (taken ++ rest) p t (taken.length + o) := by
  unfold StandsAt at *
  rwa [List.drop_length_add_append, List.take_length_add_append, Pos.advance_append]

/-- Tokens that stand in a text still do when something is put in front of it. -/
theorem standAll_behind {taken rest : Text} {body : List Token} {offsets : List Nat}
    (stand : List.Forall₂ (StandsAt rest (p.advance taken)) body offsets) :
    List.Forall₂ (StandsAt (taken ++ rest) p) body (offsets.map (taken.length + ·)) :=
  List.forall₂_map_right_iff.2 (stand.imp fun _ _ here => here.behind)

theorem increasing_shift {offsets : List Nat} (n : Nat) (increasing : offsets.Pairwise (· < ·)) :
    (offsets.map (n + ·)).Pairwise (· < ·) :=
  increasing.map _ fun _ _ less => Nat.add_lt_add_left less n

/-- The tokens of a text stand in it one behind the other. -/
theorem Scanned.stand {src : Text} (scanned : Scanned src p ts) :
    ∃ body last offsets, Ended ts body last ∧ offsets.Pairwise (· < ·) ∧
      List.Forall₂ (StandsAt src p) body offsets := by
  induction scanned with
  | done => exact ⟨[], _, [], ⟨rfl, rfl, by simp⟩, .nil, .nil⟩
  | zero => exact ⟨[], _, [], ⟨rfl, rfl, by simp⟩, .nil, .nil⟩
  | gap _ _ ih =>
    obtain ⟨body, last, offsets, ended, increasing, stand⟩ := ih
    exact ⟨body, last, _, ended, increasing_shift _ increasing, standAll_behind stand⟩
  | @token kind taken rest p ts lexeme _ _ ih =>
    obtain ⟨body, last, offsets, ended, increasing, stand⟩ := ih
    refine ⟨_ :: body, last, 0 :: offsets.map (taken.length + ·), ended.cons lexeme.kind_ne_eof,
      List.pairwise_cons.2 ⟨fun o member => ?_, increasing_shift _ increasing⟩,
      .cons ⟨?_, rfl⟩ (standAll_behind stand)⟩
    · obtain ⟨k, -, rfl⟩ := List.mem_map.1 member
      have some := List.length_pos_iff.2 lexeme.ne_nil
      omega
    · rw [lexeme.spelling, List.drop_zero]
      exact List.prefix_append taken rest

/-- A source with a comment over two lines between two tokens, and a zero byte behind
them. -/
def spacedText : Text := "x /*\n*/ \"a\" # b\n\x00y"

def spacedTokens : List Token :=
  [⟨.ident, "x", ⟨1, 1⟩⟩, ⟨.string, "a", ⟨2, 4⟩⟩, ⟨.eof, [0], ⟨3, 1⟩⟩]

theorem spacedText_read : tokens spacedText = .ok spacedTokens := by decide +kernel

/-- Every token stands in the source where it says it does: its line is one more than the
line ends before it, and its column one more than the bytes since the last of these. -/
theorem tokens_stand_at_their_places {src : Text} {ts : List Token} (read : tokens src = .ok ts) :
    ∃ body last offsets, Ended ts body last ∧ offsets.Pairwise (· < ·) ∧
      List.Forall₂ (fun (t : Token) (o : Nat) => t.spelling <+: src.drop o ∧
        t.pos.line = 1 + (src.take o).count 0x0a ∧
        t.pos.col = 1 + (Text.afterLast 0x0a (src.take o)).length) body offsets := by
  obtain ⟨body, last, offsets, ended, increasing, stand⟩ := (scan_scanned read).stand
  refine ⟨body, last, offsets, ended, increasing, stand.imp fun t o here => ?_⟩
  obtain ⟨spelled, place⟩ := here
  rw [Pos.start_advance] at place
  exact ⟨spelled, by rw [place], by rw [place]⟩

theorem spacedTokens_stand : tokens spacedText = .ok spacedTokens ∧
    ∃ body last offsets, Ended spacedTokens body last ∧ offsets.Pairwise (· < ·) ∧
      List.Forall₂ (fun (t : Token) (o : Nat) => t.spelling <+: spacedText.drop o ∧
        t.pos.line = 1 + (spacedText.take o).count 0x0a ∧
        t.pos.col = 1 + (Text.afterLast 0x0a (spacedText.take o)).length) body offsets :=
  ⟨spacedText_read, tokens_stand_at_their_places spacedText_read⟩

/-! ## Blanks and comments -/

/-- A text made of tokens with blanks and comments before, between and behind them. A
line comment goes up to the next line end or to the end of the text; the flag says whether
the text ends in one. No token starts where a comment does. -/
inductive Layout : Text → List Token → Bool → Prop
  | done : Layout [] [] false
  | blank {b : UInt8} {text : Text} {ts : List Token} {opened : Bool} : isSpace b = true →
      Layout text ts opened → Layout (b :: text) ts opened
  | line {c text : Text} {ts : List Token} {opened : Bool} : LineComment c →
      Layout (0x0a :: text) ts opened → Layout (c ++ 0x0a :: text) ts opened
  | lastLine {c : Text} : LineComment c → Layout c [] true
  | block {c text : Text} {ts : List Token} {opened : Bool} : BlockComment c →
      Layout text ts opened → Layout (c ++ text) ts opened
  | token {t : Token} {text : Text} {ts : List Token} {opened : Bool} : Lexeme t.kind t.spelling →
      ¬ StartsComment (t.spelling ++ text) → Layout text ts opened →
      Layout (t.spelling ++ text) (t :: ts) opened

theorem Layout.tokens_of_nil {text : Text} {opened : Bool}
    (laid : Layout text ts opened) (empty : text = []) : ts = [] := by
  cases laid with
  | done | lastLine => rfl
  | blank => cases empty
  | line => simp at empty
  | block comment =>
    cases comment
    cases empty
  | token lexeme => exact absurd (List.append_eq_nil_iff.1 empty).1 lexeme.ne_nil

def beforeZero (src : Text) : Text := src.takeWhile (· != 0)

theorem beforeZero_append {taken : Text} (rest : Text) (whole : 0 ∉ taken) :
    beforeZero (taken ++ rest) = taken ++ beforeZero rest := by
  refine List.takeWhile_append_of_pos fun b member => ?_
  simpa using fun same : b = 0 => whole (same ▸ member)

theorem beforeZero_cut {c : Text} (rest : Text) (whole : 0 ∉ c) :
    beforeZero (c ++ [0] ++ rest) = c := by
  rw [List.append_assoc, beforeZero_append _ whole]
  simp [beforeZero]

theorem StartsComment.mono {t u : Text} (start : StartsComment t) (goesOn : t <+: u) :
    StartsComment u :=
  start.imp (·.trans goesOn) (.imp (·.trans goesOn) (·.trans goesOn))

/-- The text before the first zero byte is laid out by the first tokens. There are more of
them only if that byte cuts off a line comment. -/
theorem Scanned.layout {src : Text} (scanned : Scanned src p ts) :
    ∃ body behind last opened, Ended ts (body ++ behind) last ∧
      Layout (beforeZero src) body opened ∧ (behind ≠ [] → opened = true ∧ 0 ∈ src) := by
  induction scanned with
  | done => exact ⟨[], [], _, false, ⟨rfl, rfl, by simp⟩, .done, by simp⟩
  | zero => exact ⟨[], [], _, false, ⟨rfl, rfl, by simp⟩, .done, by simp⟩
  | @gap taken rest p ts gap _ ih =>
    obtain ⟨body, behind, last, opened, ended, laid, cut⟩ := ih
    have later : behind ≠ [] → opened = true ∧ 0 ∈ taken ++ rest := fun more =>
      ⟨(cut more).1, List.mem_append_right taken (cut more).2⟩
    cases gap with
    | blank space =>
      refine ⟨body, behind, last, opened, ended, ?_, later⟩
      rw [beforeZero_append rest fun zero => ?_]
      · exact .blank space laid
      · rw [List.mem_singleton] at zero
        subst zero
        exact absurd space (by decide)
    | @line c _ comment whole =>
      refine ⟨body, behind, last, opened, ended, ?_, later⟩
      rw [beforeZero_append rest (by simp [whole]), List.append_assoc]
      exact .line comment (.blank (by decide) laid)
    | @cutLine c _ comment whole =>
      -- What is behind the zero byte is read on, but it is not part of the text.
      refine ⟨[], body ++ behind, last, true, ended, ?_, fun _ => ⟨rfl, by simp⟩⟩
      rw [beforeZero_cut rest whole]
      exact .lastLine comment
    | lastLine comment whole =>
      have none : behind = [] := by_contra fun more => by simpa using (cut more).2
      cases laid.tokens_of_nil rfl
      subst none
      refine ⟨[], [], last, true, ended, ?_, by simp⟩
      rw [beforeZero_append [] whole, beforeZero, List.takeWhile_nil, List.append_nil]
      exact .lastLine comment
    | block comment whole =>
      refine ⟨body, behind, last, opened, ended, ?_, later⟩
      rw [beforeZero_append rest whole]
      exact .block comment laid
  | @token kind taken rest p ts lexeme plain _ ih =>
    obtain ⟨body, behind, last, opened, ended, laid, cut⟩ := ih
    refine ⟨⟨kind, kind.value taken, p⟩ :: body, behind, last, opened,
      ended.cons lexeme.kind_ne_eof, ?_, fun more =>
        ⟨(cut more).1, List.mem_append_right taken (cut more).2⟩⟩
    have here : ¬ StartsComment (taken ++ beforeZero rest) := fun start =>
      plain (start.mono ((List.prefix_append_right_inj taken).2 (List.takeWhile_prefix _)))
    rw [beforeZero_append rest lexeme.zero_notMem]
    have spelled := lexeme.spelling p
    have all := Layout.token (t := ⟨kind, kind.value taken, p⟩) (by rwa [spelled])
      (by rwa [spelled]) laid
    rwa [spelled] at all

/-- Between its tokens a source has nothing but blanks and comments, up to the zero byte
that ends it. The tokens laid out are all there are, unless that byte cuts off a line
comment. -/
theorem tokens_leave_blanks_and_comments {src : Text} {ts : List Token}
    (read : tokens src = .ok ts) :
    ∃ body behind last opened, Ended ts (body ++ behind) last ∧
      Layout (beforeZero src) body opened ∧ (opened = false ∨ 0 ∉ src → behind = []) := by
  obtain ⟨body, behind, last, opened, ended, laid, cut⟩ := (scan_scanned read).layout
  refine ⟨body, behind, last, opened, ended, laid, fun whole => by_contra fun more => ?_⟩
  obtain ⟨inComment, zero⟩ := cut more
  rcases whole with closed | plain
  · exact Bool.noConfusion (closed.symm.trans inComment)
  · exact plain zero

theorem spacedText_is_laid_out : tokens spacedText = .ok spacedTokens ∧
    ∃ body behind last opened, Ended spacedTokens (body ++ behind) last ∧
      Layout (beforeZero spacedText) body opened ∧
      (opened = false ∨ 0 ∉ spacedText → behind = []) :=
  ⟨spacedText_read, tokens_leave_blanks_and_comments spacedText_read⟩

/-- In a text that is laid out, a zero byte can only stand in a comment. -/
theorem Layout.zero_notMem {text : Text} {opened : Bool}
    (laid : Layout text ts opened) (hash : 0x23 ∉ text) (slash : 0x2f ∉ text) : 0 ∉ text := by
  induction laid with
  | done => simp
  | blank space _ ih =>
    simp only [List.mem_cons, not_or] at hash slash ⊢
    refine ⟨?_, ih hash.2 slash.2⟩
    rintro rfl
    exact absurd space (by decide)
  | line comment => cases comment <;> simp at hash slash
  | lastLine comment => cases comment <;> simp at hash slash
  | block comment =>
    cases comment
    simp at slash
  | token lexeme _ _ ih =>
    simp only [List.mem_append, not_or] at hash slash ⊢
    exact ⟨lexeme.zero_notMem, ih hash.2 slash.2⟩

def brokenText : Text := "int x;\x00int y;"

/-- What stands behind a zero byte is in no token, and in no blank or comment. -/
theorem brokenText_is_not_laid_out : ∃ ts, tokens brokenText = .ok ts ∧
    ¬ ∃ body last opened, Ended ts body last ∧ Layout brokenText body opened := by
  have read : (tokens brokenText).toOption.isSome = true := by decide +kernel
  obtain ⟨ts, known⟩ := Option.isSome_iff_exists.1 read
  refine ⟨ts, Except.toOption_eq_some.1 known, ?_⟩
  rintro ⟨body, last, opened, -, laid⟩
  have zero : 0 ∈ brokenText := by decide +kernel
  exact laid.zero_notMem (by decide +kernel) (by decide +kernel) zero

end Lexer

end ImpCompiler
