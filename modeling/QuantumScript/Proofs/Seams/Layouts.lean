import QuantumScript.Proofs.Printing.Lines
import QuantumScript.Proofs.Seams.Lexemes
/-!
# Logical lines

The significant tokens of a text are laid out in logical lines: each holds at least one token and ends
with a line end, and blocks are opened and closed only between lines. What follows a line end at the
left margin is laid out as if nothing stood before it, once all blocks are closed.
-/

namespace QuantumScript

namespace Syntax

namespace Token

/-- Kinds of tokens that stand between lines or are in no text. -/
def edges : List TokenKind := [.newline, .indent, .dedent, .endOfInput]

/-- The token stands on a line. -/
def Inline (token : Token) : Prop := token.isTrivia = false ∧ token.kind ∉ edges

/-- The first tokens of the logical lines. A line is begun where it is `fresh`. -/
def lineHeads (fresh : Bool) : List Token → List Token
  | [] => []
  | token :: tokens =>
    if token.kind = .newline then lineHeads true tokens
    else if token.isTrivia || edges.contains token.kind then lineHeads fresh tokens
    else (if fresh then [token] else []) ++ lineHeads false tokens

/-- The last logical line does not begin with a token of the given kind. -/
def LastLineNot (kind : TokenKind) (fresh : Bool) (tokens : List Token) : Prop :=
  ∀ head ∈ (lineHeads fresh tokens).getLast?, head.kind ≠ kind

theorem inline_of_mem_cut {text : List Char} {token : Token} (hmem : token ∈ cut text)
    (h : Layout.Solid token) : Inline token := by
  obtain ⟨lexeme, _, rfl⟩ := List.mem_map.mp hmem
  have hkind := kind_ofLexeme lexeme
  refine ⟨h.1, ?_⟩
  simp only [edges, List.mem_cons, not_or] at hkind ⊢
  exact ⟨h.2, hkind⟩

section LineHeads

variable {fresh : Bool} {token : Token} {tokens : List Token}

private theorem lineHeads_inline (h : token.Inline) :
    lineHeads fresh (token :: tokens) =
      (if fresh then [token] else []) ++ lineHeads false tokens := by
  have hnewline : token.kind ≠ .newline := by
    intro hkind
    have := h.2
    rw [hkind] at this
    exact this (by decide)
  rw [lineHeads, if_neg hnewline, h.1, if_neg (by simpa using h.2)]

private theorem lineHeads_edge (hkind : token.kind = .indent ∨ token.kind = .dedent) :
    lineHeads fresh (token :: tokens) = lineHeads fresh tokens := by
  rcases hkind with hkind | hkind <;> simp [lineHeads, hkind, edges]

private theorem lineHeads_edges {edges : List Token}
    (h : ∀ token ∈ edges, token.kind = .indent ∨ token.kind = .dedent) :
    lineHeads fresh (edges ++ tokens) = lineHeads fresh tokens := by
  induction edges with
  | nil => rfl
  | cons token edges ih =>
    rw [List.cons_append, lineHeads_edge (h token (by simp)),
      ih fun other hmem => h other (by simp [hmem])]

private theorem lineHeads_line {line after : List Token} {stop : Token}
    (hline : ∀ token ∈ line, token.Inline) (hstop : stop.kind = .newline) :
    lineHeads false (line ++ stop :: after) = lineHeads true after := by
  induction line with
  | nil => rw [List.nil_append, lineHeads, if_pos hstop]
  | cons token line ih =>
    rw [List.cons_append, lineHeads_inline (hline token (by simp)),
      ih fun other hmem => hline other (by simp [hmem])]
    rfl

private theorem lineHeads_significant (fresh : Bool) (tokens : List Token) :
    lineHeads fresh (significant tokens) = lineHeads fresh tokens := by
  induction tokens generalizing fresh with
  | nil => rfl
  | cons token tokens ih =>
    by_cases htrivia : token.kind.isTrivia = true
    · have hnewline : token.kind ≠ .newline := by
        intro hkind
        rw [hkind] at htrivia
        cases htrivia
      rw [significant_cons_trivia htrivia, ih, lineHeads, if_neg hnewline,
        if_pos (by simp [isTrivia, htrivia])]
    · rw [significant_cons_solid (Bool.eq_false_iff.mpr htrivia), lineHeads, lineHeads, ih, ih, ih]

end LineHeads

end Token

/-- Significant tokens at the start of a line, inside `depth` blocks. A decorator stands before another
line. -/
inductive Laid : Nat → List Token → Prop
  | done : Laid 0 []
  | closed {depth : Nat} {token : Token} {tokens : List Token} (hkind : token.kind = .dedent)
      (hrest : Laid depth tokens) : Laid (depth + 1) (token :: tokens)
  | opened {depth : Nat} {token first : Token} {tokens : List Token}
      (hkind : token.kind = .indent) (hfirst : first.Inline)
      (hrest : Laid (depth + 1) (first :: tokens)) : Laid depth (token :: first :: tokens)
  | line {depth : Nat} {first stop : Token} {line after : List Token} (hfirst : first.Inline)
      (hline : ∀ token ∈ line, token.Inline) (hstop : stop.kind = .newline)
      (hafter : Laid depth after) (hat : first.kind = .symbol .at → after ≠ []) :
      Laid depth (first :: (line ++ stop :: after))

/-- What is left of a line that has begun, its end and what comes after it. -/
def Lined (after : List Token → Prop) (tokens : List Token) : Prop :=
  ∃ line stop rest, tokens = line ++ stop :: rest ∧ (∀ token ∈ line, token.Inline) ∧
    stop.kind = .newline ∧ after rest

namespace Layout

/-- All blocks are wider than the margin, and brackets are open only within a line. -/
structure Sane (layout : Layout) : Prop where
  blocks : ∀ block ∈ layout.blocks, 0 < block
  fresh : layout.atLineStart = true → layout.brackets = 0

/-- The tokens placed for some tokens of the text. -/
def placed (layout : Layout) : List Token → List Token
  | [] => []
  | token :: tokens => (layout.place token).1 ++ placed (layout.place token).2 tokens

/-- The layout after some tokens of the text. -/
def after (layout : Layout) (tokens : List Token) : Layout :=
  tokens.foldl (fun layout token => (layout.place token).2) layout

theorem placeAll_append (layout : Layout) (tokens others : List Token) :
    layout.placeAll (tokens ++ others) =
      layout.placed tokens ++ (layout.after tokens).placeAll others := by
  induction tokens generalizing layout with
  | nil => rfl
  | cons token tokens ih =>
    rw [List.cons_append, placeAll, ih, placed, List.append_assoc]
    rfl

theorem placeAll_eq (layout : Layout) (tokens : List Token) :
    layout.placeAll tokens = layout.placed tokens ++ (layout.after tokens).finish := by
  have h := placeAll_append layout tokens []
  rwa [List.append_nil] at h

theorem sane_start : start.Sane := ⟨List.forall_mem_nil _, fun _ => rfl⟩

private theorem blocks_unindent {width : Nat} {blocks : List Nat} (h : ∀ block ∈ blocks, 0 < block) :
    ∀ block ∈ (unindent width blocks).2, 0 < block := by
  induction blocks with
  | nil =>
    unfold unindent
    split
    · exact List.forall_mem_nil _
    · exact List.forall_mem_singleton.mpr (by omega)
  | cons block blocks ih =>
    have hblock := h block (by simp)
    unfold unindent
    split
    · exact ih fun other hmem => h other (by simp [hmem])
    · split
      · exact h
      · exact List.forall_mem_cons.mpr ⟨by omega, h⟩

private theorem blocks_reindent {width : Nat} {blocks : List Nat} (h : ∀ block ∈ blocks, 0 < block) :
    ∀ block ∈ (reindent width blocks).2, 0 < block := by
  unfold reindent
  split
  · exact List.forall_mem_cons.mpr ⟨by omega, h⟩
  · exact blocks_unindent h

/-- What a token of the text does to the layout: it is not seen, ends a line, begins a line, or stands
on a line that has begun. -/
theorem place_cases (layout : Layout) (token : Token) :
    (Token.significant (layout.place token).1 = [] ∧
      (layout.place token).2.blocks = layout.blocks ∧
      (layout.place token).2.brackets = layout.brackets ∧
      (layout.Sane → (layout.place token).2.atLineStart = layout.atLineStart)) ∨
    (layout.atLineStart = false ∧ layout.brackets = 0 ∧ token.kind = .newline ∧
      layout.place token = ([token], ⟨layout.blocks, 0, true, 0⟩)) ∨
    (Solid token ∧ layout.atLineStart = true ∧ layout.place token =
      ((reindent layout.width layout.blocks).1 ++ [token],
        ⟨(reindent layout.width layout.blocks).2, layout.width, false,
          nest layout.brackets token.kind⟩)) ∨
    (Solid token ∧ layout.atLineStart = false ∧ layout.place token =
      ([token], ⟨layout.blocks, layout.width, false, nest layout.brackets token.kind⟩)) := by
  obtain ⟨blocks, width, fresh, brackets⟩ := layout
  by_cases hsolid : Solid token
  · cases fresh with
    | true => exact .inr (.inr (.inl ⟨hsolid, rfl, place_first hsolid blocks width brackets⟩))
    | false => exact .inr (.inr (.inr ⟨hsolid, rfl, place_solid hsolid blocks width brackets⟩))
  · unfold place
    split
    · rename_i hkind
      exact .inl ⟨Token.significant_cons_trivia (by rw [hkind]; rfl) [], rfl, rfl, fun _ => rfl⟩
    · rename_i hkind
      exact .inl ⟨Token.significant_cons_trivia (by rw [hkind]; rfl) [], rfl, rfl, fun _ => rfl⟩
    · rename_i hkind
      by_cases hends : fresh = false ∧ brackets = 0
      · obtain ⟨rfl, rfl⟩ := hends
        exact .inr (.inl ⟨rfl, rfl, hkind, rfl⟩)
      · have hsilent : (0 < brackets || fresh) = true := by
          cases fresh with
          | true => exact Bool.or_true _
          | false => simpa [Nat.pos_iff_ne_zero] using hends
        refine .inl ⟨?_, rfl, rfl, fun hsane => ?_⟩
        · dsimp only
          rw [hsilent]
          exact Token.significant_cons_trivia rfl []
        · cases fresh with
          | true => rfl
          | false => simpa using hends
    · rename_i hblank hcomment hnewline
      have htrivia : token.kind.isTrivia = false := by
        cases hkind : token.kind with
        | blank => exact absurd hkind hblank
        | comment => exact absurd hkind hcomment
        | _ => rfl
      exact absurd ⟨htrivia, hnewline⟩ hsolid

theorem Sane.place {layout : Layout} (h : layout.Sane) (token : Token) :
    (layout.place token).2.Sane := by
  rcases layout.place_cases token with ⟨_, hblocks, hbrackets, hfresh⟩ | ⟨_, _, _, heq⟩ |
    ⟨_, _, heq⟩ | ⟨_, _, heq⟩
  · refine ⟨hblocks ▸ h.blocks, fun hstart => ?_⟩
    rw [hbrackets]
    exact h.fresh ((hfresh h).symm.trans hstart)
  · rw [heq]
    exact ⟨h.blocks, fun _ => rfl⟩
  · rw [heq]
    exact ⟨blocks_reindent h.blocks, fun hstart => absurd hstart Bool.false_ne_true⟩
  · rw [heq]
    exact ⟨h.blocks, fun hstart => absurd hstart Bool.false_ne_true⟩

theorem Sane.after {layout : Layout} (h : layout.Sane) (tokens : List Token) :
    (layout.after tokens).Sane := by
  induction tokens generalizing layout with
  | nil => exact h
  | cons token tokens ih => exact ih (h.place token)

private theorem unindent_margin {blocks : List Nat} (h : ∀ block ∈ blocks, 0 < block) :
    unindent 0 blocks = (blocks.map fun _ => Token.dedent, []) := by
  induction blocks with
  | nil => rfl
  | cons block blocks ih =>
    rw [unindent, if_pos (h block (by simp)), ih fun other hmem => h other (by simp [hmem])]
    rfl

private theorem placeAll_margin {layout : Layout} (h : layout.Sane) (hstart : layout.atLineStart = true)
    (hwidth : layout.width = 0) {first : Token} (hfirst : Solid first) (tokens : List Token) :
    layout.placeAll (first :: tokens) = layout.finish ++ start.placeAll (first :: tokens) := by
  have hbrackets := h.fresh hstart
  have hblocks := unindent_margin h.blocks
  obtain ⟨blocks, width, fresh, brackets⟩ := layout
  obtain rfl : fresh = true := hstart
  obtain rfl : width = 0 := hwidth
  obtain rfl : brackets = 0 := hbrackets
  have hreindent : reindent 0 blocks = (blocks.map fun _ => Token.dedent, []) := by
    rw [reindent, if_neg (Nat.not_lt_zero _)]
    exact hblocks
  rw [placeAll, placeAll, start, place_first hfirst, place_first hfirst, hreindent]
  simp [finish, reindent, level, unindent]

private theorem laid_finish (blocks : List Nat) :
    Laid blocks.length (blocks.map fun _ => Token.dedent) := by
  induction blocks with
  | nil => exact .done
  | cons block blocks ih => exact .closed rfl ih

private theorem laid_unindent {width : Nat} {blocks : List Nat} {first : Token}
    {tokens : List Token} (hfirst : first.Inline)
    (h : Laid (unindent width blocks).2.length (first :: tokens)) :
    Laid blocks.length ((unindent width blocks).1 ++ first :: tokens) := by
  induction blocks with
  | nil =>
    unfold unindent at h ⊢
    split
    · rename_i hzero
      rwa [if_pos hzero] at h
    · rename_i hzero
      rw [if_neg hzero] at h
      exact .opened rfl hfirst h
  | cons block blocks ih =>
    unfold unindent at h ⊢
    split
    · rename_i hless
      rw [if_pos hless] at h
      exact .closed rfl (ih h)
    · rename_i hless
      rw [if_neg hless] at h
      split
      · rename_i hsame
        rwa [if_pos hsame] at h
      · rename_i hsame
        rw [if_neg hsame] at h
        exact .opened rfl hfirst h

private theorem laid_reindent {width : Nat} {blocks : List Nat} {first : Token}
    {tokens : List Token} (hfirst : first.Inline)
    (h : Laid (reindent width blocks).2.length (first :: tokens)) :
    Laid blocks.length ((reindent width blocks).1 ++ first :: tokens) := by
  unfold reindent at h ⊢
  split
  · rename_i hless
    rw [if_pos hless] at h
    exact .opened rfl hfirst h
  · rename_i hless
    rw [if_neg hless] at h
    exact laid_unindent hfirst h

private theorem edges_unindent (width : Nat) (blocks : List Nat) :
    ∀ token ∈ (unindent width blocks).1, token.kind = .indent ∨ token.kind = .dedent := by
  induction blocks with
  | nil =>
    unfold unindent
    split
    · exact List.forall_mem_nil _
    · exact List.forall_mem_singleton.mpr (.inl rfl)
  | cons block blocks ih =>
    unfold unindent
    split
    · exact List.forall_mem_cons.mpr ⟨.inr rfl, ih⟩
    · split
      · exact List.forall_mem_nil _
      · exact List.forall_mem_singleton.mpr (.inl rfl)

theorem edges_reindent (width : Nat) (blocks : List Nat) :
    ∀ token ∈ (reindent width blocks).1, token.kind = .indent ∨ token.kind = .dedent := by
  unfold reindent
  split
  · exact List.forall_mem_singleton.mpr (.inl rfl)
  · exact edges_unindent width blocks

theorem significant_singleton {token : Token} (h : token.kind.isTrivia = false) :
    Token.significant [token] = [token] := Token.significant_cons_solid h []

theorem significant_edges {tokens : List Token}
    (h : ∀ token ∈ tokens, token.kind = .indent ∨ token.kind = .dedent) :
    Token.significant tokens = tokens := by
  rw [Token.significant, List.filter_eq_self]
  intro token hmem
  rcases h token hmem with hkind | hkind <;> simp [Token.isTrivia, hkind, TokenKind.isTrivia]

/-- A text that ends between two lines is laid out in logical lines. The induction is on the tokens of
the text, at the start of a line and within one. -/
private theorem laid_placeAll {layout : Layout} (hsane : layout.Sane) {tokens : List Token}
    (hraw : ∀ token ∈ tokens, Solid token → token.Inline)
    (hend : (layout.after tokens).atLineStart = true)
    (hlast : Token.LastLineNot (.symbol .at) layout.atLineStart
      (Token.significant (layout.placeAll tokens))) :
    (layout.atLineStart = true →
      Laid layout.blocks.length (Token.significant (layout.placeAll tokens))) ∧
    (layout.atLineStart = false →
      Lined (Laid layout.blocks.length) (Token.significant (layout.placeAll tokens))) := by
  induction tokens generalizing layout with
  | nil =>
    have hstart : layout.atLineStart = true := hend
    have hfinish : layout.finish = layout.blocks.map fun _ => Token.dedent := by
      rw [finish, if_pos hstart]
      rfl
    refine ⟨fun _ => ?_, fun hfresh => ?_⟩
    · rw [placeAll, hfinish, significant_edges]
      · exact laid_finish layout.blocks
      · intro token hmem
        obtain ⟨_, _, rfl⟩ := List.mem_map.mp hmem
        exact .inr rfl
    · rw [hstart] at hfresh
      cases hfresh
  | cons token tokens ih =>
    have hnext := ih (hsane.place token) (fun other hmem => hraw other (by simp [hmem])) hend
    rw [placeAll, Token.significant_append] at hlast ⊢
    rcases layout.place_cases token with ⟨hnone, hblocks, _, hsame⟩ | ⟨hfresh, _, hkind, heq⟩ |
      ⟨hsolid, hfresh, heq⟩ | ⟨hsolid, hfresh, heq⟩
    · rw [hnone, List.nil_append] at hlast ⊢
      rw [← hblocks, ← hsame hsane]
      exact hnext (by rwa [hsame hsane])
    · have htrivia : token.kind.isTrivia = false := by
        rw [hkind]
        rfl
      rw [heq] at hnext hlast ⊢
      rw [significant_singleton htrivia, List.singleton_append] at hlast ⊢
      refine ⟨fun hstart => absurd (hfresh.symm.trans hstart) Bool.false_ne_true, fun _ => ?_⟩
      refine ⟨[], token, _, rfl, List.forall_mem_nil _, hkind, (hnext ?_).1 rfl⟩
      rwa [hfresh, Token.LastLineNot, Token.lineHeads, if_pos hkind] at hlast
    · have hinline := hraw token (by simp) hsolid
      have hedges := edges_reindent layout.width layout.blocks
      rw [heq] at hnext hlast ⊢
      rw [Token.significant_append, significant_edges hedges,
        significant_singleton hsolid.1, List.append_assoc, List.singleton_append] at hlast ⊢
      rw [hfresh, Token.LastLineNot, Token.lineHeads_edges hedges,
        Token.lineHeads_inline hinline] at hlast
      refine ⟨fun _ => ?_, fun hstart => absurd (hfresh.symm.trans hstart).symm Bool.false_ne_true⟩
      have hrest := (hnext fun head hmem => hlast head (by
        rw [if_pos rfl, List.singleton_append, List.getLast?_cons, Option.mem_def.mp hmem]
        rfl)).2 rfl
      obtain ⟨line, stop, after, htokens, hline, hstop, hafter⟩ := hrest
      rw [htokens, Token.lineHeads_line hline hstop] at hlast
      rw [htokens]
      refine laid_reindent hinline (.line hinline hline hstop hafter fun hat hnil => ?_)
      rw [hnil] at hlast
      exact hlast token rfl hat
    · have hinline := hraw token (by simp) hsolid
      rw [heq] at hnext hlast ⊢
      rw [significant_singleton hsolid.1, List.singleton_append] at hlast ⊢
      rw [hfresh, Token.LastLineNot, Token.lineHeads_inline hinline] at hlast
      refine ⟨fun hstart => absurd (hfresh.symm.trans hstart) Bool.false_ne_true, fun _ => ?_⟩
      obtain ⟨line, stop, after, htokens, hline, hstop, hafter⟩ := (hnext hlast).2 rfl
      exact ⟨token :: line, stop, after, by rw [htokens]; rfl,
        List.forall_mem_cons.mpr ⟨hinline, hline⟩, hstop, hafter⟩

end Layout

/-- The layout after a text. -/
def Layout.ofText (text : List Char) : Layout :=
  (Lexeme.ofText text).foldl (fun layout lexeme => (layout.step lexeme).2) .start

/-- The text is empty or ends with a line break, and the layout after it is at the start of a line at
the left margin. The last of its logical lines is no decorator. -/
structure ClosesLine (text : List Char) : Prop where
  lexemes : Lexeme.EndsLine (Lexeme.ofText text)
  start : (Layout.ofText text).atLineStart = true
  margin : (Layout.ofText text).width = 0
  last : Token.LastLineNot (.symbol .at) true (Token.ofText text)

/-- Words that go on with a compound statement. -/
def clauseWords : List TokenKind :=
  [.keyword .elifWord, .keyword .elseWord, .keyword .exceptWord, .keyword .finallyWord]

/-- The text is empty, or a token begins with its first character that the grammar sees and that does
not go on with a compound statement. -/
def BeginsLine (text : List Char) : Prop :=
  ∀ first ∈ (Lexeme.ofText text).head?, Layout.Solid (Token.ofLexeme first) ∧
    (Token.ofLexeme first).kind ∉ clauseWords

theorem Layout.ofText_eq (text : List Char) :
    Layout.ofText text = Layout.start.after (Token.cut text) := by
  rw [Layout.after, Token.cut, List.foldl_map]
  rfl

/-- Two texts that meet between two lines are laid out one after the other. -/
theorem Token.ofText_append {text tail : List Char} (htext : ClosesLine text)
    (htail : BeginsLine tail) (hne : tail ≠ []) :
    Token.ofText (text ++ tail) = Token.ofText text ++ Token.ofText tail := by
  have hstart := htext.start
  have hmargin := htext.margin
  rw [Layout.ofText_eq] at hstart hmargin
  obtain ⟨first, rest, hfirst⟩ : ∃ first rest, Lexeme.ofText tail = first :: rest := by
    cases tail with
    | nil => exact absurd rfl hne
    | cons c cs =>
      rw [Lexeme.ofText]
      exact ⟨_, _, rfl⟩
  have hsolid := (htail first (by rw [hfirst]; rfl)).1
  have hmeet := Layout.placeAll_margin (Layout.sane_start.after (cut text)) hstart hmargin hsolid
  rw [ofText, ofText, ofText, Layout.tokens_eq_placeAll, Layout.tokens_eq_placeAll,
    Layout.tokens_eq_placeAll, Lexeme.ofText_append htext.lexemes, List.map_append,
    Layout.placeAll_append, hfirst, List.map_cons, ← cut, hmeet,
    Layout.placeAll_eq Layout.start (cut text), List.append_assoc]

/-- The tokens of a text that ends between two lines are laid out in logical lines. -/
theorem ClosesLine.laid {text : List Char} (h : ClosesLine text) :
    Laid 0 (Token.significant (Token.ofText text)) := by
  have hstart := h.start
  have hlast := h.last
  rw [Layout.ofText_eq] at hstart
  rw [Token.LastLineNot, ← Token.lineHeads_significant, Token.ofText,
    Layout.tokens_eq_placeAll] at hlast
  rw [Token.ofText, Layout.tokens_eq_placeAll]
  exact (Layout.laid_placeAll Layout.sane_start (fun _ => Token.inline_of_mem_cut) hstart hlast).1 rfl

end Syntax

end QuantumScript
