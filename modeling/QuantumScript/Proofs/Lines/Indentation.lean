import Mathlib
import QuantumScript.Proofs.Lexing.Breaks
import QuantumScript.Proofs.Locating.Columns
import QuantumScript.Proofs.Printing.Blocks
import QuantumScript.Proofs.Seams.Layouts
/-!
# Indentation

The width of a logical line is measured where its first token stands. It is the width of the blanks before
that token on its physical line and of the lines that are joined to it, each with its backslash and its line
break; a comment or a blank line above adds nothing to it. Lines of one width that follow each other are in
one block.
-/

namespace QuantumScript

namespace Text

private theorem lines_append_line {whole line : List Char} (h : Closed whole) (hline : '\n' ∉ line) :
    lines (whole ++ line) = (lines whole).dropLast ++ [line] := by
  have hlast : lines line = [line] := by
    induction line with
    | nil => rfl
    | cons c cs ih =>
      rw [lines, if_neg (List.ne_of_not_mem_cons hline).symm, ih (List.not_mem_of_not_mem_cons hline)]
  obtain ⟨front, hfront, happend⟩ := h.lines
  rw [happend, hlast, hfront, List.dropLast_concat]

private theorem lines_append_break {whole line : List Char} (h : Closed whole) (hline : '\n' ∉ line) :
    lines (whole ++ (line ++ ['\n'])) = (lines whole).dropLast ++ [line ++ ['\n'], []] := by
  have hlast : lines (line ++ ['\n']) = [line ++ ['\n'], []] := by
    induction line with
    | nil => rfl
    | cons c cs ih =>
      rw [List.cons_append, lines, if_neg (List.ne_of_not_mem_cons hline).symm,
        ih (List.not_mem_of_not_mem_cons hline)]
  obtain ⟨front, hfront, happend⟩ := h.lines
  rw [happend, hlast, hfront, List.dropLast_concat]

private theorem closed_append_break (whole line : List Char) : Closed (whole ++ (line ++ ['\n'])) :=
  .inr ⟨whole ++ line, (List.append_assoc _ _ _).symm⟩

private theorem feed_not_mem_of_blanks {text : List Char} (h : text.all isBlank = true) : '\n' ∉ text :=
  fun hmem => absurd (List.all_eq_true.mp h _ hmem) (by decide)

end Text

namespace Lexeme

open Text

/-- A run of blanks on one line. -/
def IsRun (lexeme : Lexeme) : Prop := lexeme.kind = .blank ∧ lexeme.text.all isBlank = true

/-- A backslash that joins two lines. -/
def IsJoin (lexeme : Lexeme) : Prop :=
  lexeme.kind = .blank ∧ (lexeme.text = ['\\', '\n'] ∨ lexeme.text = ['\\', '\r', '\n'])

/-- Two lexemes that follow each other: a comment goes on to the end of its line, and a run of blanks takes all
of them. -/
def Follows (lexeme next : Lexeme) : Prop :=
  (lexeme.kind = .comment → next.kind ≠ .blank) ∧ (lexeme.IsRun → ¬next.IsRun)

section Forms

variable {c : Char} {cs : List Char} {n : Nat}

/-- Kinds of lexemes that are not seen on a line. -/
def fillers : List Kind := [.comment, .blank, .lineBreak]

private theorem measure_filler {kind : Kind} (hkind : kind ∈ fillers) (h : measure c cs = (kind, n)) :
    filler? c cs = some (kind, n) := by
  have hne : (∀ form, kind ≠ .literal form) ∧ (∀ symbol, kind ≠ .symbol symbol) ∧ kind ≠ .word ∧ kind ≠ .unknown := by
    simp only [fillers, List.mem_cons, List.not_mem_nil, or_false] at hkind
    rcases hkind with rfl | rfl | rfl <;> exact ⟨nofun, nofun, nofun, nofun⟩
  obtain ⟨hliteral, hsymbol, hword, hunknown⟩ := hne
  rcases measure_cases h with hfiller | hoperand | hother
  · exact hfiller
  · unfold operand? at hoperand
    repeat' split at hoperand
    all_goals cases hoperand
    all_goals first | exact absurd rfl hword | exact absurd rfl (hliteral _)
  · unfold symbolOr at hother
    split at hother
    all_goals cases hother
    · exact absurd rfl (hsymbol _)
    · exact absurd rfl hunknown

private theorem headIs_drop_countWhile (p : Char → Bool) (cs : List Char) :
    headIs p (cs.drop (countWhile p cs)) = false := by
  induction cs with
  | nil => rfl
  | cons c cs ih =>
    unfold countWhile at ih ⊢
    by_cases hc : p c = true
    · rwa [List.takeWhile_cons_of_pos hc]
    · rw [List.takeWhile_cons_of_neg hc]
      exact Bool.eq_false_iff.mpr hc

private theorem take_countWhile (p : Char → Bool) (cs : List Char) :
    cs.take (countWhile p cs) = cs.takeWhile p :=
  (List.prefix_iff_eq_take.mp (List.takeWhile_prefix p)).symm

private theorem lineBreak?_forms {cs : List Char} {n : Nat} (h : lineBreak? cs = some n) :
    cs.take n = ['\n'] ∨ cs.take n = ['\r', '\n'] := by
  unfold lineBreak? at h
  split at h
  · cases h
    exact .inl rfl
  · cases h
    exact .inr rfl
  · cases h

private theorem filler?_forms {kind : Kind} (h : filler? c cs = some (kind, n)) :
    (kind = .comment ∧ c = '#' ∧ n = countWhile (fun d => !(d = '\n' || d = '\r')) cs) ∨
    (kind = .lineBreak ∧ (c :: cs.take n = ['\n'] ∨ c :: cs.take n = ['\r', '\n'])) ∨
    (kind = .blank ∧ c = '\\' ∧ lineBreak? cs = some n) ∨
    (kind = .blank ∧ isBlank c = true ∧ n = countWhile isBlank cs) := by
  unfold filler? at h
  split at h
  · cases h
    exact .inl ⟨rfl, ‹_›, rfl⟩
  split at h
  · cases h
    exact .inr (.inl ⟨rfl, .inl (by rw [‹c = _›, List.take_zero])⟩)
  split at h
  · split at h
    · rename_i hreturn hhead
      cases h
      refine .inr (.inl ⟨rfl, .inr ?_⟩)
      cases cs with
      | nil => cases hhead
      | cons d cs =>
        obtain rfl : d = '\n' := by simpa [headIs] using hhead
        rw [hreturn]
        rfl
    · cases h
  split at h
  · obtain ⟨m, hm, heq⟩ := Option.map_eq_some_iff.mp h
    cases heq
    exact .inr (.inr (.inl ⟨rfl, ‹_›, hm⟩))
  split at h
  · cases h
    exact .inr (.inr (.inr ⟨rfl, ‹_›, rfl⟩))
  · cases h

private theorem forms_of_mem {text : List Char} {lexeme : Lexeme} (h : lexeme ∈ ofText text) :
    (lexeme.kind = .comment → ∃ body, lexeme.text = '#' :: body ∧ '\n' ∉ body) ∧
    (lexeme.kind = .lineBreak → lexeme.text = ['\n'] ∨ lexeme.text = ['\r', '\n']) ∧
    (lexeme.kind = .blank → lexeme.IsRun ∨ lexeme.IsJoin) := by
  fun_induction ofText text with
  | case1 => cases h
  | case2 c cs kind n hmeasure ih =>
    rcases List.mem_cons.mp h with rfl | hmem
    · have hforms (hkind : kind ∈ fillers) := filler?_forms (measure_filler hkind hmeasure)
      refine ⟨?_, ?_, ?_⟩
      · rintro rfl
        obtain ⟨_, rfl, rfl⟩ := (hforms (by decide)).resolve_right (by simp)
        refine ⟨_, rfl, fun hmem => ?_⟩
        rw [take_countWhile] at hmem
        exact absurd (List.mem_takeWhile_imp hmem) (by decide)
      · rintro rfl
        obtain ⟨_, htext⟩ := ((hforms (by decide)).resolve_left (by simp)).resolve_right (by simp)
        exact htext
      · rintro rfl
        rcases hforms (by decide) with ⟨hkind, _⟩ | ⟨hkind, _⟩ | ⟨_, rfl, hbreak⟩ | ⟨_, hblank, rfl⟩
        · cases hkind
        · cases hkind
        · refine .inr ⟨rfl, ?_⟩
          rcases lineBreak?_forms hbreak with htake | htake
          · exact .inl (congrArg ('\\' :: ·) htake)
          · exact .inr (congrArg ('\\' :: ·) htake)
        · refine .inl ⟨rfl, ?_⟩
          rw [take_countWhile, List.all_cons, hblank, List.all_takeWhile]
          rfl
    · exact ih hmem

private theorem follows_of_measure {kind other : Kind} {d : Char} {ds : List Char} {m : Nat}
    (hmeasure : measure c cs = (kind, n)) (hdrop : cs.drop n = d :: ds) (hnext : measure d ds = (other, m)) :
    Follows ⟨kind, c :: cs.take n⟩ ⟨other, d :: ds.take m⟩ := by
  constructor
  · rintro rfl rfl
    obtain ⟨_, _, rfl⟩ := (filler?_forms (measure_filler (by decide) hmeasure)).resolve_right (by simp)
    have hend := headIs_drop_countWhile (fun d => !(d = '\n' || d = '\r')) cs
    rw [hdrop] at hend
    have hd : d = '\n' ∨ d = '\r' := by
      rwa [headIs, Bool.not_eq_false', Bool.or_eq_true, decide_eq_true_eq, decide_eq_true_eq] at hend
    rcases filler?_forms (measure_filler (by decide) hnext) with ⟨hkind, _⟩ | ⟨hkind, _⟩ | ⟨_, rfl, _⟩ |
      ⟨_, hblank, _⟩
    · cases hkind
    · cases hkind
    · exact absurd hd (by decide)
    · rcases hd with rfl | rfl <;> cases hblank
  · rintro ⟨rfl, hrun⟩ ⟨_, hother⟩
    have hblank : isBlank c = true := List.all_eq_true.mp hrun c List.mem_cons_self
    have hd : isBlank d = true := List.all_eq_true.mp hother d List.mem_cons_self
    rcases filler?_forms (measure_filler (by decide) hmeasure) with ⟨hkind, _⟩ | ⟨hkind, _⟩ | ⟨_, rfl, _⟩ |
      ⟨_, _, rfl⟩
    · cases hkind
    · cases hkind
    · cases hblank
    · have hend := headIs_drop_countWhile isBlank cs
      rw [hdrop] at hend
      exact absurd (hd.symm.trans hend) (by decide)

private theorem isChain_follows (text : List Char) : (ofText text).IsChain Follows := by
  fun_induction ofText text with
  | case1 => exact .nil
  | case2 c cs kind n hmeasure ih =>
    cases hdrop : cs.drop n with
    | nil =>
      rw [ofText]
      exact .singleton _
    | cons d ds =>
      obtain ⟨other, m, hnext⟩ : ∃ other m, measure d ds = (other, m) := ⟨_, _, rfl⟩
      rw [hdrop, ofText_cons hnext] at ih
      rw [ofText_cons hnext]
      exact .cons_cons (follows_of_measure hmeasure hdrop hnext) ih

end Forms

end Lexeme

namespace Syntax

namespace Layout

open Text

/-- The layout behind some lexemes at the front of a text. -/
def reach (before : List Lexeme) : Layout := start.after (before.map Token.ofLexeme)

/-- What stands behind the last line break that joins no lines. -/
def lead (before : List Lexeme) : List Char :=
  (before.rtakeWhile fun lexeme => lexeme.kind ≠ .lineBreak).flatMap Lexeme.text

/-- The physical lines that are joined to the one that comes after some lexemes. -/
def joined (before : List Lexeme) : List (List Char) := (Text.lines (lead before)).dropLast

/-- The blanks at the front of the physical line that a text ends with. -/
def margin (text : List Char) : List Char := ((Text.lines text).getLastD []).takeWhile isBlank

/-- The width of what stands before a token on its physical line and on those joined to it. -/
def indentation (before : List Lexeme) : Nat :=
  ((joined before).map blankWidth).sum + blankWidth (margin (before.flatMap Lexeme.text))

/-- A lexeme that begins a logical line. -/
structure Heads (before : List Lexeme) (lexeme : Lexeme) : Prop where
  fresh : (reach before).atLineStart = true
  solid : Solid (Token.ofLexeme lexeme)

/-- The physical lines that a text ends with: those that are joined and the one that has begun. -/
structure Physical (before : List Lexeme) (joins : List (List Char)) (own : List Char) : Prop where
  unended : '\n' ∉ own
  led : ∃ whole, lead before = whole ++ own ∧ Closed whole ∧ Text.lines whole = joins ++ [[]]
  full : ∃ whole, before.flatMap Lexeme.text = whole ++ own ∧ Closed whole

section Physical

variable {before : List Lexeme} {joins : List (List Char)} {own : List Char} {lexeme : Lexeme}

theorem physical_nil : Physical [] [] [] where
  unended := List.not_mem_nil
  led := ⟨[], rfl, .inl rfl, rfl⟩
  full := ⟨[], rfl, .inl rfl⟩

private theorem Physical.joined_eq (h : Physical before joins own) : joined before = joins := by
  obtain ⟨whole, hlead, hclosed, hlines⟩ := h.led
  rw [joined, hlead, lines_append_line hclosed h.unended, hlines, List.dropLast_concat, List.dropLast_concat]

private theorem Physical.margin_eq (h : Physical before joins own) :
    margin (before.flatMap Lexeme.text) = own.takeWhile isBlank := by
  obtain ⟨whole, htext, hclosed⟩ := h.full
  rw [margin, htext, lines_append_line hclosed h.unended, List.getLastD_concat]

private theorem Physical.indentation_eq (h : Physical before joins own) :
    indentation before = (joins.map blankWidth).sum + blankWidth (own.takeWhile isBlank) := by
  rw [indentation, h.joined_eq, h.margin_eq]

private theorem lead_concat (h : lexeme.kind ≠ .lineBreak) :
    lead (before ++ [lexeme]) = lead before ++ lexeme.text := by
  rw [lead, List.rtakeWhile_concat_pos _ _ _ (by simpa using h), List.flatMap_append, List.flatMap_singleton]
  rfl

private theorem Physical.concat_piece (h : Physical before joins own) (hkind : lexeme.kind ≠ .lineBreak)
    (htext : '\n' ∉ lexeme.text) : Physical (before ++ [lexeme]) joins (own ++ lexeme.text) where
  unended := by
    rw [List.mem_append, not_or]
    exact ⟨h.unended, htext⟩
  led := by
    obtain ⟨whole, hlead, hclosed, hlines⟩ := h.led
    exact ⟨whole, by rw [lead_concat hkind, hlead, List.append_assoc], hclosed, hlines⟩
  full := by
    obtain ⟨whole, hfull, hclosed⟩ := h.full
    exact ⟨whole, by rw [List.flatMap_append, hfull, List.flatMap_singleton, List.append_assoc], hclosed⟩

private theorem Physical.concat_join (h : Physical before joins own) (hkind : lexeme.kind ≠ .lineBreak)
    (line : List Char) (htext : lexeme.text = line ++ ['\n']) (hline : '\n' ∉ line) :
    Physical (before ++ [lexeme]) (joins ++ [own ++ lexeme.text]) [] where
  unended := List.not_mem_nil
  led := by
    obtain ⟨whole, hlead, hclosed, hlines⟩ := h.led
    have hown : '\n' ∉ own ++ line := by
      rw [List.mem_append, not_or]
      exact ⟨h.unended, hline⟩
    refine ⟨whole ++ ((own ++ line) ++ ['\n']), ?_, closed_append_break whole (own ++ line), ?_⟩
    · rw [lead_concat hkind, hlead, htext]
      simp
    · rw [lines_append_break hclosed hown, hlines, List.dropLast_concat, htext]
      simp
  full := by
    obtain ⟨whole, hfull, hclosed⟩ := h.full
    refine ⟨whole ++ ((own ++ line) ++ ['\n']), ?_, closed_append_break whole (own ++ line)⟩
    rw [List.flatMap_append, hfull, List.flatMap_singleton, htext]
    simp

private theorem Physical.of_lineBreak (hkind : lexeme.kind = .lineBreak) (line : List Char)
    (htext : lexeme.text = line ++ ['\n']) : Physical (before ++ [lexeme]) [] [] where
  unended := List.not_mem_nil
  led := by
    refine ⟨[], ?_, .inl rfl, rfl⟩
    rw [lead, List.rtakeWhile_concat_neg _ _ _ (by simpa using hkind)]
    rfl
  full := by
    refine ⟨before.flatMap Lexeme.text ++ (line ++ ['\n']), ?_, closed_append_break _ _⟩
    rw [List.flatMap_append, List.flatMap_singleton, htext, List.append_nil]

end Physical

section Steps

variable {before : List Lexeme} {lexeme : Lexeme}

theorem reach_concat (before : List Lexeme) (lexeme : Lexeme) :
    reach (before ++ [lexeme]) = ((reach before).place (Token.ofLexeme lexeme)).2 := by
  rw [reach, after, List.map_append, List.foldl_append]
  rfl

private theorem fresh_reach_blank (h : lexeme.kind = .blank) :
    (reach (before ++ [lexeme])).atLineStart = (reach before).atLineStart := by
  obtain ⟨kind, text⟩ := lexeme
  obtain rfl : kind = .blank := h
  rw [reach_concat]
  rfl

private theorem reach_blank (h : lexeme.kind = .blank) (hfresh : (reach before).atLineStart = true) :
    (reach (before ++ [lexeme])).width = (reach before).width + blankWidth lexeme.text := by
  obtain ⟨kind, text⟩ := lexeme
  obtain rfl : kind = .blank := h
  rw [reach_concat]
  exact if_pos hfresh

private theorem reach_comment (h : lexeme.kind = .comment) : reach (before ++ [lexeme]) = reach before := by
  obtain ⟨kind, text⟩ := lexeme
  obtain rfl : kind = .comment := h
  rw [reach_concat]
  rfl

private theorem reach_lineBreak (h : lexeme.kind = .lineBreak) : (reach (before ++ [lexeme])).width = 0 := by
  obtain ⟨kind, text⟩ := lexeme
  obtain rfl : kind = .lineBreak := h
  rw [reach_concat]
  rfl

theorem solid_ofLexeme (h : lexeme.kind ∉ Lexeme.fillers) : Solid (Token.ofLexeme lexeme) := by
  obtain ⟨kind, text⟩ := lexeme
  cases kind with
  | comment => exact absurd List.mem_cons_self h
  | blank => exact absurd (List.mem_cons_of_mem _ List.mem_cons_self) h
  | lineBreak => exact absurd (List.mem_cons_of_mem _ (List.mem_cons_of_mem _ List.mem_cons_self)) h
  | word =>
    unfold Token.ofLexeme
    dsimp only
    split <;> exact ⟨rfl, nofun⟩
  | literal form => cases form <;> exact ⟨rfl, nofun⟩
  | symbol symbol => exact ⟨rfl, nofun⟩
  | unknown => exact ⟨rfl, nofun⟩

private theorem reach_solid (h : Solid (Token.ofLexeme lexeme)) :
    (reach (before ++ [lexeme])).atLineStart = false := by
  rw [reach_concat]
  obtain ⟨blocks, width, fresh, brackets⟩ := reach before
  cases fresh with
  | true => rw [place_first h]
  | false => rw [place_solid h]

/-- What the layout has measured at the start of a logical line. The line that has begun holds only blanks, or
a comment up to its end. -/
structure Measured (before : List Lexeme) (joins : List (List Char)) (own : List Char) : Prop where
  physical : Physical before joins own
  width : (reach before).width = (joins.map blankWidth).sum + blankWidth (own.takeWhile isBlank)
  line : own = [] ∨ ∃ last ∈ before.getLast?,
    last.kind = .comment ∨ last.IsRun ∧ own.all isBlank = true

private theorem blankWidth_join {own join : List Char} (h : join = ['\\', '\n'] ∨ join = ['\\', '\r', '\n']) :
    blankWidth (own ++ join) = blankWidth own + blankWidth join := by
  rcases h with rfl | rfl <;> simp [blankWidth, widen]

theorem measured_nil : Measured [] [] [] where
  physical := physical_nil
  width := rfl
  line := .inl rfl

private theorem measured_lineBreak {text : List Char} (hmem : lexeme ∈ Lexeme.ofText text)
    (hkind : lexeme.kind = .lineBreak) : Measured (before ++ [lexeme]) [] [] where
  physical := by
    rcases (Lexeme.forms_of_mem hmem).2.1 hkind with htext | htext
    · exact .of_lineBreak hkind [] htext
    · exact .of_lineBreak hkind ['\r'] htext
  width := reach_lineBreak hkind
  line := .inl rfl

section Concat

variable {joins : List (List Char)} {own : List Char} (h : Measured before joins own)
include h

private theorem Measured.concat_comment (hkind : lexeme.kind = .comment) {body : List Char}
    (htext : lexeme.text = '#' :: body) (hbody : '\n' ∉ body) :
    Measured (before ++ [lexeme]) joins (own ++ lexeme.text) where
  physical := by
    refine h.physical.concat_piece (by rw [hkind]; nofun) ?_
    rw [htext]
    exact List.not_mem_cons_of_ne_of_not_mem (by decide) hbody
  width := by
    have hmargin : (own ++ lexeme.text).takeWhile isBlank = own.takeWhile isBlank := by
      rw [htext, List.takeWhile_append]
      split
      · rename_i hall
        rw [List.takeWhile_cons_of_neg (by decide), List.append_nil,
          (List.takeWhile_prefix _).eq_of_length hall]
      · rfl
    rw [reach_comment hkind, h.width, hmargin]
  line := .inr ⟨lexeme, List.getLast?_concat, .inl hkind⟩

private theorem Measured.all_blank (hkind : lexeme.kind = .blank)
    (hfollows : ∀ last ∈ before.getLast?, last.Follows lexeme) :
    own.all isBlank = true := by
  rcases h.line with rfl | ⟨last, hlast, hcomment | ⟨_, hall⟩⟩
  · rfl
  · exact absurd hkind ((hfollows last hlast).1 hcomment)
  · exact hall

private theorem Measured.width_blank (hown : own.all isBlank = true) :
    (reach before).width = (joins.map blankWidth).sum + blankWidth own := by
  rw [h.width, List.takeWhile_eq_self_iff.mpr (List.all_eq_true.mp hown)]

private theorem Measured.concat_run (hrun : lexeme.IsRun)
    (hfollows : ∀ last ∈ before.getLast?, last.Follows lexeme)
    (hfresh : (reach before).atLineStart = true) : Measured (before ++ [lexeme]) joins lexeme.text := by
  obtain rfl : own = [] := by
    rcases h.line with hnil | ⟨last, hlast, hcomment | ⟨hlastRun, _⟩⟩
    · exact hnil
    · exact absurd hrun.1 ((hfollows last hlast).1 hcomment)
    · exact absurd hrun ((hfollows last hlast).2 hlastRun)
  refine ⟨?_, ?_, .inr ⟨lexeme, List.getLast?_concat, .inr ⟨hrun, hrun.2⟩⟩⟩
  · exact h.physical.concat_piece (by rw [hrun.1]; nofun) (feed_not_mem_of_blanks hrun.2)
  · rw [reach_blank hrun.1 hfresh, h.width_blank rfl,
      List.takeWhile_eq_self_iff.mpr (List.all_eq_true.mp hrun.2)]
    rfl

private theorem Measured.concat_join (hjoin : lexeme.IsJoin)
    (hfollows : ∀ last ∈ before.getLast?, last.Follows lexeme)
    (hfresh : (reach before).atLineStart = true) :
    Measured (before ++ [lexeme]) (joins ++ [own ++ lexeme.text]) [] where
  physical := by
    have hkind : lexeme.kind ≠ .lineBreak := by
      rw [hjoin.1]
      nofun
    rcases hjoin.2 with htext | htext
    · exact h.physical.concat_join hkind ['\\'] htext (by decide)
    · exact h.physical.concat_join hkind ['\\', '\r'] htext (by decide)
  width := by
    rw [reach_blank hjoin.1 hfresh, h.width_blank (h.all_blank hjoin.1 hfollows), List.map_append, List.sum_append,
      List.map_singleton, List.sum_singleton, blankWidth_join hjoin.2, Nat.add_assoc]
    rfl
  line := .inl rfl

end Concat

/-- The induction is on the lexemes before the line, the last of them first. -/
private theorem measured_reach {text : List Char} {rest : List Lexeme}
    (htext : Lexeme.ofText text = before ++ rest)
    (hfresh : (reach before).atLineStart = true) : ∃ joins own, Measured before joins own := by
  induction before using List.reverseRecOn generalizing rest with
  | nil => exact ⟨[], [], measured_nil⟩
  | append_singleton before lexeme ih =>
    have hmem : lexeme ∈ Lexeme.ofText text := by simp [htext]
    have hfollows : ∀ last ∈ before.getLast?, last.Follows lexeme := by
      have hchain := Lexeme.isChain_follows text
      rw [htext, List.append_assoc, List.singleton_append] at hchain
      exact fun last hlast => (List.isChain_append.mp hchain).2.2 last hlast lexeme rfl
    have hrest : Lexeme.ofText text = before ++ lexeme :: rest := by rw [htext, List.append_assoc, List.singleton_append]
    obtain ⟨hcomment, -, hblank⟩ := Lexeme.forms_of_mem hmem
    by_cases hfiller : lexeme.kind ∈ Lexeme.fillers
    · simp only [Lexeme.fillers, List.mem_cons, List.not_mem_nil, or_false] at hfiller
      rcases hfiller with hkind | hkind | hkind
      · rw [reach_comment hkind] at hfresh
        obtain ⟨joins, own, h⟩ := ih hrest hfresh
        obtain ⟨body, hbody, hfeed⟩ := hcomment hkind
        exact ⟨_, _, h.concat_comment hkind hbody hfeed⟩
      · rw [fresh_reach_blank hkind] at hfresh
        obtain ⟨joins, own, h⟩ := ih hrest hfresh
        rcases hblank hkind with hrun | hjoin
        · exact ⟨_, _, h.concat_run hrun hfollows hfresh⟩
        · exact ⟨_, _, h.concat_join hjoin hfollows hfresh⟩
      · exact ⟨_, _, measured_lineBreak hmem hkind⟩
    · rw [reach_solid (solid_ofLexeme hfiller)] at hfresh
      cases hfresh

private theorem width_reach {text : List Char} {rest : List Lexeme}
    (htext : Lexeme.ofText text = before ++ rest)
    (hfresh : (reach before).atLineStart = true) : (reach before).width = indentation before := by
  obtain ⟨joins, own, h⟩ := measured_reach htext hfresh
  rw [h.width, h.physical.indentation_eq]

private theorem place_heads (h : Heads before lexeme) :
    ((reach before).place (Token.ofLexeme lexeme)).1 =
        (reindent (reach before).width (reach before).blocks).1 ++ [Token.ofLexeme lexeme] ∧
      (reach (before ++ [lexeme])).blocks = (reindent (reach before).width (reach before).blocks).2 := by
  have hfresh := h.fresh
  rw [reach_concat]
  generalize reach before = layout at hfresh ⊢
  obtain ⟨blocks, width, fresh, brackets⟩ := layout
  obtain rfl : fresh = true := hfresh
  rw [place_first h.solid]
  exact ⟨rfl, rfl⟩

/-- The token opens or closes a block. -/
def IsEdge (token : Token) : Prop := token.kind = .indent ∨ token.kind = .dedent

private theorem not_isEdge_ofLexeme (lexeme : Lexeme) : ¬IsEdge (Token.ofLexeme lexeme) := by
  have hkind := Token.kind_ofLexeme lexeme
  simp only [List.mem_cons, not_or] at hkind
  exact not_or.mpr ⟨hkind.1, hkind.2.1⟩

private theorem place_not_heads (h : ¬Heads before lexeme) :
    (∀ token ∈ ((reach before).place (Token.ofLexeme lexeme)).1, ¬IsEdge token) ∧
      (reach (before ++ [lexeme])).blocks = (reach before).blocks := by
  have hself : ∀ token ∈ [Token.ofLexeme lexeme], ¬IsEdge token :=
    List.forall_mem_singleton.mpr (not_isEdge_ofLexeme lexeme)
  rw [reach_concat]
  rcases (reach before).place_cases (Token.ofLexeme lexeme) with ⟨hnone, hblocks, _⟩ | ⟨_, _, _, heq⟩ |
    ⟨hsolid, hfresh, _⟩ | ⟨_, _, heq⟩
  · refine ⟨fun token hmem hedge => ?_, hblocks⟩
    have htrivia : token.isTrivia = true := by simpa using List.filter_eq_nil_iff.mp hnone token hmem
    rcases hedge with hkind | hkind <;> simp [Token.isTrivia, hkind, TokenKind.isTrivia] at htrivia
  · rw [heq]
    exact ⟨hself, rfl⟩
  · exact absurd ⟨hfresh, hsolid⟩ h
  · rw [heq]
    exact ⟨hself, rfl⟩

private theorem level_unindent (width : Nat) (blocks : List Nat) : level (unindent width blocks).2 = width := by
  induction blocks with
  | nil =>
    unfold unindent
    split
    · rename_i hzero
      exact hzero.symm
    · rfl
  | cons block blocks ih =>
    unfold unindent
    split
    · exact ih
    split
    · rename_i hsame
      exact hsame.symm
    · rfl

private theorem level_reindent (width : Nat) (blocks : List Nat) : level (reindent width blocks).2 = width := by
  unfold reindent
  split
  · rfl
  · exact level_unindent width blocks

/-- A line as wide as the block that is open goes on in it. The induction is on the lexemes before the line. -/
private theorem placed_level {between : List Lexeme} (h : Heads (before ++ between) lexeme)
    (hbetween : ∀ front other back, between = front ++ other :: back → ¬Heads (before ++ front) other)
    (hlevel : level (reach before).blocks = (reach (before ++ between)).width) :
    ∀ token ∈ (reach before).placed ((between ++ [lexeme]).map Token.ofLexeme), ¬IsEdge token := by
  induction between generalizing before with
  | nil =>
    rw [List.append_nil] at h hlevel
    have hplace := (place_heads h).1
    rw [← hlevel, reindent_level, List.nil_append] at hplace
    rw [List.nil_append, List.map_singleton, placed, placed, List.append_nil, hplace]
    exact List.forall_mem_singleton.mpr (not_isEdge_ofLexeme lexeme)
  | cons other between ih =>
    have hsplit : before ++ other :: between = (before ++ [other]) ++ between := by simp
    obtain ⟨hquiet, hblocks⟩ := place_not_heads (by simpa using hbetween [] other between rfl)
    rw [hsplit] at h hlevel
    rw [List.cons_append, List.map_cons, placed, ← reach_concat, List.forall_mem_append]
    refine ⟨hquiet, ih h (fun front next back heq => ?_) (hblocks ▸ hlevel)⟩
    have := hbetween (other :: front) next back (by rw [heq, List.cons_append])
    rwa [List.append_assoc]

/-- The indentation of a logical line, for every text. A lexeme that begins a logical line is compared with
the open blocks by the width of the blanks before it on its physical line, to which the physical lines that
are joined to that line add their own widths, whatever stands above them; it is the width of the blanks alone
unless a backslash stands where the logical line would begin. If the next logical line is as wide, no block
is opened or closed up to its first token. -/
theorem indentation_measured (text : List Char) :
    (∀ before lexeme rest, Lexeme.ofText text = before ++ lexeme :: rest → Heads before lexeme →
      (reach before).step lexeme =
        ((reindent (indentation before) (reach before).blocks).1 ++ [Token.ofLexeme lexeme],
          reach (before ++ [lexeme])) ∧
      (reach (before ++ [lexeme])).blocks = (reindent (indentation before) (reach before).blocks).2 ∧
      (joined before = [] → indentation before = blankWidth (margin (before.flatMap Lexeme.text)))) ∧
    (∀ before lexeme between next rest,
      Lexeme.ofText text = before ++ lexeme :: (between ++ next :: rest) →
      Heads before lexeme → Heads (before ++ lexeme :: between) next →
      (∀ front other back, between = front ++ other :: back → ¬Heads (before ++ lexeme :: front) other) →
      indentation before = indentation (before ++ lexeme :: between) →
      ∀ token ∈ (reach (before ++ [lexeme])).placed ((between ++ [next]).map Token.ofLexeme), ¬IsEdge token) := by
  refine ⟨fun before lexeme rest htext hheads => ?_,
    fun before lexeme between next rest htext hheads hnext hbetween hwidth => ?_⟩
  · obtain ⟨hplaced, hblocks⟩ := place_heads hheads
    rw [width_reach htext hheads.fresh] at hplaced hblocks
    refine ⟨Prod.ext hplaced (reach_concat before lexeme).symm, hblocks, fun hnone => ?_⟩
    rw [indentation, hnone, List.map_nil, List.sum_nil, Nat.zero_add]
  · have hsplit (front : List Lexeme) : before ++ lexeme :: front = (before ++ [lexeme]) ++ front := by simp
    have hother : Lexeme.ofText text = (before ++ lexeme :: between) ++ next :: rest := by
      rw [htext, List.append_assoc, List.cons_append]
    have hlevel : level (reach (before ++ [lexeme])).blocks = (reach (before ++ lexeme :: between)).width := by
      rw [(place_heads hheads).2, level_reindent, width_reach htext hheads.fresh, hwidth,
        width_reach hother hnext.fresh]
    rw [hsplit between] at hnext hlevel
    refine placed_level hnext (fun front other back heq => ?_) hlevel
    rw [← hsplit]
    exact hbetween front other back heq

/-- A line that stands in the same column as the one above opens a block if it is joined to the backslash
before it. -/
example :
    (Token.ofText "if a:\n    b\n    c\n".toList).countP (·.kind = .indent) = 1 ∧
    (Token.ofText "if a:\n    b\n\\\n    c\n".toList).countP (·.kind = .indent) = 2 := by
  constructor <;> cbv

end Steps

end Layout

end Syntax

end QuantumScript
