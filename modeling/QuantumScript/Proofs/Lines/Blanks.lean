import Mathlib
import QuantumScript.Proofs.Parsing.Displaced
import QuantumScript.Proofs.Lexing.Alone
/-!
# Blank lines

A line that holds nothing but blanks and a comment may stand between any two lines of a text, or before the
first or after the last of them. The text has the same significant tokens and the same bare tree without it,
and the same errors, those behind the line being shown further up.
-/

namespace QuantumScript

/-- The span, further behind by `more` bytes if it starts at `place` or behind. -/
def Span.past (place more : Nat) (span : Span) : Span :=
  if span.start < place then span else ⟨span.start + more, span.stop + more⟩

private theorem Span.past_start_le (place more : Nat) (a b : Span) :
    (a.past place more).start ≤ (b.past place more).start ↔ a.start ≤ b.start := by
  have hstart (span : Span) :
      (span.past place more).start = if span.start < place then span.start else span.start + more := by
    unfold past
    split <;> rfl
  rw [hstart, hstart]
  split <;> split <;> omega

namespace Syntax

open Text

/-- Blanks, perhaps a comment, and a line break. -/
def BlankLine (line : List Char) : Prop :=
  ∃ blanks comment ending, line = blanks ++ (comment ++ ending) ∧ (∀ c ∈ blanks, isBlank c = true) ∧
    (comment = [] ∨ ∃ body, comment = '#' :: body ∧ ∀ c ∈ body, c ≠ '\n' ∧ c ≠ '\r') ∧ Line.IsBreak ending

namespace Token

/-- What a blank line is cut into, its line break being seen as a blank. -/
structure Hidden (token : Token) : Prop where
  trivia : token.isTrivia = true
  flaw : token.flaw = none

section Cut

variable {ending : List Char}

private theorem cut_break (h : Line.IsBreak ending) (rest : List Char) :
    cut (ending ++ rest) = lineBreak ending :: cut rest := by
  rcases h with rfl | rfl
  · have hmeasure : Lexeme.measure '\n' ([] ++ rest) = (.lineBreak, 0) := rfl
    exact cut_cons hmeasure
  · have hmeasure : Lexeme.measure '\r' (['\n'] ++ rest) = (.lineBreak, 1) := rfl
    exact cut_cons hmeasure

private theorem cut_comment {body : List Char} (hbody : ∀ c ∈ body, c ≠ '\n' ∧ c ≠ '\r')
    (h : Line.IsBreak ending) (rest : List Char) :
    cut ('#' :: (body ++ (ending ++ rest))) = ⟨.comment, '#' :: body, none⟩ :: cut (ending ++ rest) := by
  have hcount : Lexeme.countWhile (fun d => !(d = '\n' || d = '\r')) (body ++ (ending ++ rest)) =
      body.length := by
    unfold Lexeme.countWhile
    rw [List.takeWhile_append_of_pos (by simpa using hbody), List.length_append]
    rcases h with rfl | rfl <;> rfl
  have hmeasure : Lexeme.measure '#' (body ++ (ending ++ rest)) = (.comment, body.length) := by
    rw [← hcount]
    rfl
  exact cut_cons hmeasure

end Cut

private theorem cut_blankLine {line : List Char} (h : BlankLine line) :
    ∃ before ending, (∀ token ∈ before, (token.kind = .blank ∨ token.kind = .comment) ∧ token.flaw = none) ∧
      (before ++ [lineBreak ending]).flatMap Token.text = line ∧
      ∀ rest, cut (line ++ rest) = before ++ lineBreak ending :: cut rest := by
  obtain ⟨blanks, comment, ending, rfl, hblanks, hcomment, hending⟩ := h
  have hrest : ∃ before : List Token,
      (∀ token ∈ before, (token.kind = .blank ∨ token.kind = .comment) ∧ token.flaw = none) ∧
      (before ++ [lineBreak ending]).flatMap Token.text = comment ++ ending ∧
      ∀ rest, cut (comment ++ ending ++ rest) = before ++ lineBreak ending :: cut rest := by
    rcases hcomment with rfl | ⟨body, rfl, hbody⟩
    · exact ⟨[], List.forall_mem_nil _, List.append_nil _, cut_break hending⟩
    · refine ⟨[⟨.comment, '#' :: body, none⟩], by simp, by simp [lineBreak], fun rest => ?_⟩
      rw [List.cons_append, List.cons_append, List.append_assoc, cut_comment hbody hending,
        cut_break hending]
      rfl
  obtain ⟨before, hbefore, htext, hcut⟩ := hrest
  cases blanks with
  | nil => exact ⟨before, ending, hbefore, htext, hcut⟩
  | cons c cs =>
    refine ⟨⟨.blank, c :: cs, none⟩ :: before, ending, ?_, ?_, fun rest => ?_⟩
    · exact List.forall_mem_cons.mpr ⟨⟨.inl rfl, rfl⟩, hbefore⟩
    · rw [List.cons_append, List.flatMap_cons, htext]
    · have hfirst : ∀ d others, comment ++ ending ++ rest = d :: others → isBlank d = false := by
        intro d others heq
        rcases hcomment with rfl | ⟨body, rfl, -⟩
        · rcases hending with rfl | rfl <;> cases heq <;> rfl
        · cases heq
          rfl
      rw [List.append_assoc, List.cons_append,
        cut_blank (hblanks c (by simp)) (fun d hmem => hblanks d (by simp [hmem])) hfirst, hcut]
      rfl

end Token

namespace Layout

private theorem placeAll_blankLine {line : List Char} (h : BlankLine line) :
    ∃ blanks : List Token, (∀ token ∈ blanks, token.Hidden) ∧ blanks.flatMap Token.text = line ∧
      ∀ layout : Layout, layout.atLineStart = true → layout.width = 0 → ∀ rest,
        layout.placeAll (Token.cut (line ++ rest)) = blanks ++ layout.placeAll (Token.cut rest) := by
  obtain ⟨before, ending, hbefore, htext, hcut⟩ := Token.cut_blankLine h
  refine ⟨before ++ [{ Token.lineBreak ending with kind := .blank }], ?_, ?_, ?_⟩
  · refine List.forall_mem_append.mpr ⟨fun token hmem => ⟨?_, (hbefore token hmem).2⟩,
      List.forall_mem_singleton.mpr ⟨rfl, rfl⟩⟩
    rcases (hbefore token hmem).1 with hkind | hkind <;> rw [Token.isTrivia, hkind] <;> rfl
  · rw [← htext, List.flatMap_append, List.flatMap_append]
    rfl
  · intro layout hstart hwidth rest
    -- The width of the blanks is forgotten at the line break, so it may be any.
    have hblanks (width : Nat) : ({ layout with width } : Layout).placeAll
        (before ++ Token.lineBreak ending :: Token.cut rest) =
          before ++ { Token.lineBreak ending with kind := .blank } :: layout.placeAll (Token.cut rest) := by
      clear htext hcut
      induction before generalizing width with
      | nil =>
        obtain ⟨blocks, _, fresh, brackets⟩ := layout
        obtain rfl : fresh = true := hstart
        obtain rfl : _ = 0 := hwidth
        rw [List.nil_append, placeAll]
        have hplace : place ⟨blocks, width, true, brackets⟩ (Token.lineBreak ending) =
            ([if 0 < brackets || true then { Token.lineBreak ending with kind := .blank }
              else Token.lineBreak ending], ⟨blocks, 0, true, brackets⟩) := rfl
        rw [hplace, Bool.or_true]
        rfl
      | cons token before ih =>
        have hnext := ih fun other hmem => hbefore other (by simp [hmem])
        obtain ⟨width', hplace⟩ : ∃ width', place { layout with width } token =
            ([token], { layout with width := width' }) := by
          unfold place
          rcases (hbefore token (by simp)).1 with hkind | hkind <;> rw [hkind] <;> exact ⟨_, rfl⟩
        rw [List.cons_append, placeAll, hplace, hnext]
        rfl
    have hsame := hblanks 0
    rw [hcut, List.append_assoc, List.singleton_append, ← hsame]
    obtain ⟨_, _, _, _⟩ := layout
    cases hwidth
    rfl

private theorem flatMap_text_placed (text : List Char) :
    (start.placed (Token.cut text)).flatMap Token.text = text := by
  have htext := Token.flatMap_text_ofText text
  rwa [Token.ofText, tokens_eq_placeAll, placeAll_eq, List.flatMap_append, flatMap_text_finish,
    List.append_nil] at htext

private theorem text_of_last_placed (layout : Layout) {tokens : List Token}
    (h : ∀ token ∈ tokens, token.text ≠ []) :
    ∀ last ∈ (layout.placed tokens).getLast?, last.text ≠ [] := by
  induction tokens generalizing layout with
  | nil => exact fun last hlast => absurd hlast (Option.not_mem_none last)
  | cons token tokens ih =>
    intro last hlast
    rw [placed, List.getLast?_append, Option.mem_def, Option.or_eq_some_iff] at hlast
    rcases hlast with hlast | ⟨-, hlast⟩
    · exact ih _ (fun other hmem => h other (by simp [hmem])) last hlast
    · have htoken := h token (by simp)
      unfold place at hlast
      split at hlast
      · cases hlast
        exact htoken
      · cases hlast
        exact htoken
      · cases hlast
        split <;> exact htoken
      · rw [List.getLast?_concat] at hlast
        cases hlast
        exact htoken

end Layout

namespace Token

section Spans

variable {tokens front back : List Token}

private theorem byteLength_flatMap_pos (hlast : ∀ last ∈ tokens.getLast?, last.text ≠ []) (hne : tokens ≠ []) :
    0 < byteLength (tokens.flatMap Token.text) := by
  obtain ⟨front, last, rfl⟩ := (List.eq_nil_or_concat tokens).resolve_left hne
  have htext := hlast last (by rw [List.concat_eq_append, List.getLast?_concat]; rfl)
  obtain ⟨c, cs, hcs⟩ := List.exists_cons_of_ne_nil htext
  have hc := c.utf8Size_pos
  simp only [List.concat_eq_append, List.flatMap_append, List.flatMap_cons, hcs, byteLength_append,
    List.cons_append, byteLength_cons]
  omega

private theorem spanAt_start_lt (offset : Nat) (hlast : ∀ last ∈ tokens.getLast?, last.text ≠ []) {number : Nat}
    (h : number < (significant tokens).length) :
    (spanAt offset tokens number).start < offset + byteLength (tokens.flatMap Token.text) := by
  induction tokens generalizing offset number with
  | nil => exact absurd h (Nat.not_lt_zero _)
  | cons token tokens ih =>
    have hrest : ∀ last ∈ tokens.getLast?, last.text ≠ [] := fun last hmem =>
      hlast last (by rw [List.getLast?_cons, Option.mem_def.mp hmem]; rfl)
    have hpos := byteLength_flatMap_pos hlast (List.cons_ne_nil _ _)
    rw [List.flatMap_cons, byteLength_append] at hpos ⊢
    cases htrivia : token.isTrivia with
    | true =>
      rw [significant_cons_trivia htrivia] at h
      have hnext := ih (offset + byteLength token.text) hrest h
      rw [spanAt_trivia htrivia]
      omega
    | false =>
      rw [significant_cons_solid htrivia, List.length_cons] at h
      cases number with
      | zero =>
        rw [spanAt_zero htrivia]
        exact Nat.lt_add_of_pos_right hpos
      | succ number =>
        have hnext := ih (offset + byteLength token.text) hrest (Nat.lt_of_succ_lt_succ h)
        rw [spanAt_succ htrivia]
        omega

private theorem le_spanAt_start (offset : Nat) (tokens : List Token) (number : Nat) :
    offset ≤ (spanAt offset tokens number).start := by
  induction tokens generalizing offset number with
  | nil => exact Nat.le_refl _
  | cons token tokens ih =>
    cases htrivia : token.isTrivia with
    | true =>
      have hnext := ih (offset + byteLength token.text) number
      rw [spanAt_trivia htrivia]
      omega
    | false =>
      cases number with
      | zero =>
        rw [spanAt_zero htrivia]
      | succ number =>
        have hnext := ih (offset + byteLength token.text) number
        rw [spanAt_succ htrivia]
        omega

private theorem spanAt_add (offset more : Nat) (tokens : List Token) (number : Nat) :
    spanAt (offset + more) tokens number =
      ⟨(spanAt offset tokens number).start + more, (spanAt offset tokens number).stop + more⟩ := by
  induction tokens generalizing offset number with
  | nil => rfl
  | cons token tokens ih =>
    cases htrivia : token.isTrivia with
    | true => rw [spanAt_trivia htrivia, spanAt_trivia htrivia, Nat.add_right_comm, ih]
    | false =>
      cases number with
      | zero => rw [spanAt_zero htrivia, spanAt_zero htrivia, Nat.add_right_comm]
      | succ number => rw [spanAt_succ htrivia, spanAt_succ htrivia, Nat.add_right_comm, ih]

theorem spanAt_append (offset : Nat) (front back : List Token) (number : Nat) :
    spanAt offset (front ++ back) number =
      if number < (significant front).length then spanAt offset front number
      else spanAt (offset + byteLength (front.flatMap Token.text)) back
        (number - (significant front).length) := by
  induction front generalizing offset number with
  | nil => rfl
  | cons token front ih =>
    rw [List.cons_append, List.flatMap_cons, byteLength_append, ← Nat.add_assoc]
    cases htrivia : token.isTrivia with
    | true => rw [spanAt_trivia htrivia, spanAt_trivia htrivia, significant_cons_trivia htrivia, ih]
    | false =>
      rw [significant_cons_solid htrivia, List.length_cons]
      cases number with
      | zero => rw [spanAt_zero htrivia, spanAt_zero htrivia, if_pos (Nat.zero_lt_succ _)]
      | succ number =>
        rw [spanAt_succ htrivia, spanAt_succ htrivia, ih, Nat.add_sub_add_right]
        simp only [Nat.add_lt_add_iff_right]

private theorem significant_hidden {blanks : List Token} (h : ∀ token ∈ blanks, token.Hidden) :
    significant blanks = [] := by
  rw [significant, List.filter_eq_nil_iff]
  intro token hmem
  simp [(h token hmem).trivia]

private theorem spanAt_past {blanks : List Token} (hblanks : ∀ token ∈ blanks, token.Hidden)
    (hlast : ∀ last ∈ front.getLast?, last.text ≠ []) (number : Nat) :
    spanAt 0 (front ++ (blanks ++ back)) number =
      (spanAt 0 (front ++ back) number).past (byteLength (front.flatMap Token.text))
        (byteLength (blanks.flatMap Token.text)) := by
  rw [spanAt_append, spanAt_append 0 front back, Nat.zero_add]
  by_cases hfront : number < (significant front).length
  · have hless := spanAt_start_lt 0 hlast hfront
    rw [Nat.zero_add] at hless
    rw [if_pos hfront, if_pos hfront, Span.past, if_pos hless]
  · have hge := le_spanAt_start (byteLength (front.flatMap Token.text)) back
      (number - (significant front).length)
    rw [if_neg hfront, if_neg hfront, Span.past, if_neg (Nat.not_lt.mpr hge), spanAt_append,
      significant_hidden hblanks, List.length_nil, if_neg (Nat.not_lt_zero _), Nat.sub_zero, spanAt_add]

end Spans

/-- A blank line may stand between any two lines of a text. -/
structure Skips (text line tail : List Char) : Prop where
  significant : significant (ofText (text ++ line ++ tail)) = significant (ofText (text ++ tail))
  spans : ∀ number, spanAt 0 (ofText (text ++ line ++ tail)) number =
    (spanAt 0 (ofText (text ++ tail)) number).past (byteLength text) (byteLength line)

private theorem skips_blankLine {text line : List Char} (hends : Lexeme.EndsLine (Lexeme.ofText text))
    (hstart : (Layout.ofText text).atLineStart = true) (hmargin : (Layout.ofText text).width = 0)
    (hline : BlankLine line) (tail : List Char) : Skips text line tail := by
  obtain ⟨blanks, hhidden, hblanks, hplace⟩ := Layout.placeAll_blankLine hline
  rw [Layout.ofText_eq] at hstart hmargin
  have hcut (more : List Char) : ofText (text ++ more) =
      Layout.start.placed (cut text) ++ (Layout.start.after (cut text)).placeAll (cut more) := by
    rw [ofText, Layout.tokens_eq_placeAll, Lexeme.ofText_append hends, List.map_append,
      Layout.placeAll_append]
    rfl
  have hshort := hcut tail
  have hlong := hcut (line ++ tail)
  rw [hplace _ hstart hmargin, ← List.append_assoc text] at hlong
  refine ⟨?_, fun number => ?_⟩
  · rw [hlong, hshort, significant_append, significant_append, significant_append,
      significant_hidden hhidden, List.nil_append]
  · have htext : ∀ token ∈ cut text, token.text ≠ [] := by
      intro token hmem
      obtain ⟨lexeme, hlexeme, rfl⟩ := List.mem_map.mp hmem
      rw [text_ofLexeme]
      exact (Lexeme.ofText_text_of_mem hlexeme).1
    rw [hlong, hshort, spanAt_past hhidden (Layout.text_of_last_placed .start htext),
      Layout.flatMap_text_placed, hblanks]

end Token

/-- Blank lines and lines that hold only a comment do not matter, wherever a new line begins. -/
theorem parse_blankLine {text line : List Char} (hends : Lexeme.EndsLine (Lexeme.ofText text))
    (hstart : (Layout.ofText text).atLineStart = true) (hmargin : (Layout.ofText text).width = 0)
    (hline : BlankLine line) (tail : List Char) :
    Token.significant (Token.ofText (text ++ line ++ tail)) =
      Token.significant (Token.ofText (text ++ tail)) ∧
    (parse (text ++ line ++ tail)).tree.bare = (parse (text ++ tail)).tree.bare ∧
    (parse (text ++ line ++ tail)).errors.map Error.message =
      (parse (text ++ tail)).errors.map Error.message ∧
    (parse (text ++ line ++ tail)).errors.map Error.span =
      (parse (text ++ tail)).errors.map fun error =>
        error.span.past (byteLength text) (byteLength line) := by
  have hskips := Token.skips_blankLine hends hstart hmargin hline tail
  have herrors := errors_parse_displaced hskips.significant hskips.spans (Span.past_start_le _ _)
  refine ⟨hskips.significant, bare_parse_congr hskips.significant, ?_, ?_⟩
  · rw [herrors, List.map_map]
    rfl
  · rw [herrors, List.map_map]
    rfl

/-- A comment within a block, before a line that has an error in it. -/
theorem parse_blankLine_comment :
    BlankLine "\t # b\r\n".toList ∧
      Token.significant (Token.ofText ("if a:\n".toList ++ "\t # b\r\n".toList ++ "  c +\n".toList)) =
        Token.significant (Token.ofText ("if a:\n".toList ++ "  c +\n".toList)) ∧
      (parse ("if a:\n".toList ++ "\t # b\r\n".toList ++ "  c +\n".toList)).errors.map Error.message =
        (parse ("if a:\n".toList ++ "  c +\n".toList)).errors.map Error.message := by
  have hlast : (Lexeme.ofText "if a:\n".toList).getLast? = some ⟨.lineBreak, ['\n']⟩ := by cbv
  have hends : Lexeme.EndsLine (Lexeme.ofText "if a:\n".toList) := by
    intro last hmem
    rw [hlast] at hmem
    obtain rfl := Option.some.inj hmem
    rfl
  have hline : BlankLine "\t # b\r\n".toList :=
    ⟨['\t', ' '], ['#', ' ', 'b'], ['\r', '\n'], rfl, by simp [isBlank],
      .inr ⟨[' ', 'b'], rfl, by simp⟩, .inr rfl⟩
  obtain ⟨htokens, -, hmessages, -⟩ := parse_blankLine hends (by cbv) (by cbv) hline "  c +\n".toList
  exact ⟨hline, htokens, hmessages⟩

end Syntax

end QuantumScript
