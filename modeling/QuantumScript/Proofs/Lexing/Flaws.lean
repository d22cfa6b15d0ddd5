import QuantumScript.Proofs.Lines.Borders
import QuantumScript.Proofs.Lines.Indentation
import QuantumScript.Syntax.Lexed
/-!
# Listed flaws

The flaws of a text are listed once each and in order. The entries follow from the lexemes: a lexeme that is
wrong by itself is listed at its own token, and one that begins a line as wide as no open block at the token
that opens a block for it. The search by halving finds what is listed.
-/

namespace QuantumScript

/-- The flaw of a literal that breaks off early. -/
def LiteralForm.flaw? : LiteralForm → Option Syntax.Flaw
  | .integer _ true => some .missingDigits
  | .float true => some .missingExponentDigits
  | .quoted false true => some .openTripleString
  | .quoted false false => some .openString
  | _ => none

/-- The flaw that a lexeme has by itself. -/
def Lexeme.flaw? (lexeme : Lexeme) : Option Syntax.Flaw :=
  match lexeme.kind with
  | .unknown => some .unknownCharacter
  | .literal form => form.flaw?
  | _ => none

namespace Syntax

private theorem Token.flaw_eq (lexeme : Lexeme) : (Token.ofLexeme lexeme).flaw = lexeme.flaw? := by
  obtain ⟨kind, text⟩ := lexeme
  unfold ofLexeme Lexeme.flaw?
  cases kind with
  | word =>
    dsimp only
    split <;> rfl
  | literal form =>
    cases form with
    | integer _ digitless => cases digitless <;> rfl
    | float exponentless => cases exponentless <;> rfl
    | imaginary => rfl
    | quoted terminated triple => cases terminated <;> cases triple <;> rfl
  | _ => rfl

namespace Layout

/-- A line begins with the lexeme, narrower than the innermost open block, and neither at the margin nor as wide
as an open block. -/
def strays (layout : Layout) (lexeme : Lexeme) : Bool :=
  layout.atLineStart && !Lexeme.fillers.contains lexeme.kind && layout.width < level layout.blocks &&
    !(0 :: layout.blocks).contains layout.width

private theorem lt_of_rising {block : Nat} {blocks : List Nat} (h : Rising (block :: blocks)) :
    ∀ other ∈ blocks, other < block := by
  intro other hmem
  rw [Rising, List.reverse_cons, ← List.cons_append, List.pairwise_append] at h
  exact h.2.2 other (List.mem_cons_of_mem _ (List.mem_reverse.mpr hmem)) block (by simp)

private theorem unindent_flaws (width : Nat) {blocks : List Nat} (h : Rising blocks) :
    ∃ closing : List Token, (∀ token ∈ closing, token.flaw = none) ∧ (unindent width blocks).1 =
      closing ++ if width ∈ 0 :: blocks then [] else [Token.strayIndent] := by
  induction blocks with
  | nil =>
    refine ⟨[], List.forall_mem_nil _, ?_⟩
    unfold unindent
    split <;> simp_all
  | cons block blocks ih =>
    obtain ⟨closing, hflawless, hclosing⟩ := ih (rising_cons.mp h).2
    unfold unindent
    split
    · rename_i hless
      refine ⟨.dedent :: closing, List.forall_mem_cons.mpr ⟨rfl, hflawless⟩, ?_⟩
      simp [hclosing, Nat.ne_of_lt hless]
    split
    · rename_i hsame
      exact ⟨[], List.forall_mem_nil _, by simp [hsame]⟩
    · have hunmatched : width ∉ 0 :: block :: blocks := by
        rintro hmem
        rcases List.mem_cons.mp hmem with rfl | hmem
        · omega
        rcases List.mem_cons.mp hmem with rfl | hmem
        · omega
        · have := lt_of_rising h width hmem
          omega
      exact ⟨[], List.forall_mem_nil _, by rw [if_neg hunmatched]; rfl⟩

private theorem reindent_flaws (width : Nat) {blocks : List Nat} (h : Rising blocks) :
    ∃ opening : List Token, (∀ token ∈ opening, token.flaw = none) ∧ (reindent width blocks).1 =
      opening ++ if width < level blocks ∧ width ∉ 0 :: blocks then [Token.strayIndent] else [] := by
  unfold reindent
  split
  · rename_i hwider
    exact ⟨[.indent], List.forall_mem_singleton.mpr rfl, by simp [Nat.not_lt.mpr (Nat.le_of_lt hwider)]⟩
  · rename_i hnarrow
    obtain ⟨closing, hflawless, hclosing⟩ := unindent_flaws width h
    refine ⟨closing, hflawless, ?_⟩
    have hlevel : level blocks ∈ 0 :: blocks := by cases blocks <;> simp [level]
    have hless : width ∉ 0 :: blocks → width < level blocks := fun hunmatched =>
      Nat.lt_of_le_of_ne (Nat.not_lt.mp hnarrow) fun heq => hunmatched (heq ▸ hlevel)
    rw [hclosing]
    by_cases hmem : width ∈ 0 :: blocks
    · rw [if_pos hmem, if_neg fun hboth => hboth.2 hmem]
    · rw [if_neg hmem, if_pos ⟨hless hmem, hmem⟩]

/-- What is placed for a lexeme: tokens without a flaw, a block that is opened for a line that strays, and its
own token. -/
private theorem step_flaws {layout : Layout} (h : Rising layout.blocks) (lexeme : Lexeme) :
    ∃ (opening : List Token) (own : Token), (layout.step lexeme).1 =
        opening ++ (if layout.strays lexeme then [Token.strayIndent] else []) ++ [own] ∧
      (∀ token ∈ opening, token.flaw = none) ∧ own.text = lexeme.text ∧ own.flaw = lexeme.flaw? := by
  have htext := Token.text_ofLexeme lexeme
  have hflaw := Token.flaw_eq lexeme
  have hplain {own : Token} (hstep : (layout.step lexeme).1 = [own]) (hstrays : layout.strays lexeme = false) :
      (layout.step lexeme).1 = [] ++ (if layout.strays lexeme then [Token.strayIndent] else []) ++ [own] := by
    rw [hstep, hstrays]
    rfl
  by_cases hfiller : lexeme.kind ∈ Lexeme.fillers
  · have hstrays : layout.strays lexeme = false := by simp [strays, hfiller]
    obtain ⟨kind, text⟩ := lexeme
    cases kind with
    | comment => exact ⟨[], _, hplain rfl hstrays, List.forall_mem_nil _, rfl, rfl⟩
    | blank => exact ⟨[], _, hplain rfl hstrays, List.forall_mem_nil _, rfl, rfl⟩
    | lineBreak =>
      refine ⟨[], _, hplain rfl hstrays, List.forall_mem_nil _, ?_⟩
      split <;> exact ⟨rfl, rfl⟩
    | _ => simp [Lexeme.fillers] at hfiller
  · have hsolid := solid_ofLexeme hfiller
    have hstep : layout.step lexeme = layout.place (Token.ofLexeme lexeme) := rfl
    obtain ⟨blocks, width, fresh, brackets⟩ := layout
    cases fresh with
    | false =>
      rw [place_solid hsolid] at hstep
      exact ⟨[], _, hplain (by rw [hstep]) (by simp [strays]), List.forall_mem_nil _, htext, hflaw⟩
    | true =>
      rw [place_first hsolid] at hstep
      obtain ⟨opening, hflawless, hopening⟩ := reindent_flaws width h
      refine ⟨opening, _, ?_, hflawless, htext, hflaw⟩
      rw [hstep, hopening]
      simp [strays, hfiller]

end Layout

namespace Lexed

/-- The entries of tokens, the first of which has the given index. -/
def entries (index : Nat) : List Token → List (Nat × Flaw)
  | [] => []
  | token :: tokens => (token.flaw.toList.map fun flaw => (index, flaw)) ++ entries (index + 1) tokens

theorem entries_append (index : Nat) (tokens others : List Token) :
    entries index (tokens ++ others) = entries index tokens ++ entries (index + tokens.length) others := by
  induction tokens generalizing index with
  | nil => rfl
  | cons token tokens ih =>
    rw [List.cons_append, entries, entries, ih, List.append_assoc, List.length_cons, Nat.add_right_comm,
      Nat.add_assoc]

private theorem entries_flawless {tokens : List Token} (h : ∀ token ∈ tokens, token.flaw = none) (index : Nat) :
    entries index tokens = [] := by
  induction tokens generalizing index with
  | nil => rfl
  | cons token tokens ih =>
    rw [List.forall_mem_cons] at h
    rw [entries, h.1, ih h.2]
    rfl

theorem mem_entries {index : Nat} {tokens : List Token} {entry : Nat × Flaw}
    (h : entry ∈ entries index tokens) : index ≤ entry.1 ∧ entry.1 < index + tokens.length := by
  induction tokens generalizing index with
  | nil => cases h
  | cons token tokens ih =>
    rw [List.length_cons]
    rcases List.mem_append.mp h with hfirst | hlater
    · obtain ⟨flaw, _, rfl⟩ := List.mem_map.mp hfirst
      exact ⟨Nat.le_refl _, by omega⟩
    · have := ih hlater
      omega

/-- Each token is listed at most once, and they are listed from left to right. -/
theorem pairwise_entries (index : Nat) (tokens : List Token) :
    (entries index tokens).Pairwise fun entry next => entry.1 < next.1 := by
  induction tokens generalizing index with
  | nil => exact .nil
  | cons token tokens ih =>
    rw [entries]
    have hlater : ∀ entry ∈ entries (index + 1) tokens, index < entry.1 := fun entry hmem => (mem_entries hmem).1
    cases token.flaw with
    | none => exact ih _
    | some flaw => exact List.pairwise_cons.mpr ⟨hlater, ih _⟩

section Push

variable (lexed : Lexed) (tokens : List Token)

private theorem tokens_foldl : (tokens.foldl push lexed).tokens.toList = lexed.tokens.toList ++ tokens := by
  induction tokens generalizing lexed with
  | nil => simp
  | cons token tokens ih =>
    rw [List.foldl_cons, ih]
    simp [push]

private theorem starts_foldl : (tokens.foldl push lexed).starts.toList ++ [(tokens.foldl push lexed).stop] =
    lexed.starts.toList ++ Token.starts lexed.stop tokens := by
  induction tokens generalizing lexed with
  | nil => rfl
  | cons token tokens ih =>
    rw [List.foldl_cons, ih, Token.starts]
    simp [push]

private theorem flaws_foldl : (tokens.foldl push lexed).flaws.toList =
    lexed.flaws.toList ++ entries lexed.tokens.size tokens := by
  induction tokens generalizing lexed with
  | nil => simp [entries]
  | cons token tokens ih =>
    rw [List.foldl_cons, ih, entries, push]
    cases token.flaw <;> simp

end Push

section Texts

variable (text : List Char)

theorem tokens_ofText : (ofText text).tokens.toList = Token.ofText text := by
  rw [ofText, tokens_foldl]
  rfl

theorem starts_ofText : (ofText text).starts.toList ++ [(ofText text).stop] =
    Token.starts 0 (Token.ofText text) := by
  rw [ofText, starts_foldl]
  rfl

theorem flaws_ofText : (ofText text).flaws.toList = entries 0 (Token.ofText text) := by
  rw [ofText, flaws_foldl]
  rfl

end Texts

private theorem search_eq_some {flaws : Array (Nat × Flaw)}
    (h : flaws.toList.Pairwise fun entry next => entry.1 < next.1)
    {index low high : Nat} (hhigh : high ≤ flaws.size) {flaw : Flaw} :
    search flaws index low high = some flaw ↔ ∃ n, low ≤ n ∧ n < high ∧ flaws[n]? = some (index, flaw) := by
  have hless {m n : Nat} {entry next : Nat × Flaw} (hm : flaws[m]? = some entry) (hn : flaws[n]? = some next)
      (hlt : m < n) : entry.1 < next.1 := by
    obtain ⟨hsize, rfl⟩ := Array.getElem?_eq_some_iff.mp hn
    obtain ⟨hother, rfl⟩ := Array.getElem?_eq_some_iff.mp hm
    have := List.pairwise_iff_getElem.mp h m n (by simpa using hother) (by simpa using hsize) hlt
    simpa using this
  -- Whatever entry is found in the middle, entries on one side of it have other indexes.
  fun_induction search flaws index low high with
  | case1 low high hlow middle hnone =>
    have := Array.getElem?_eq_none_iff.mp hnone
    omega
  | case2 low high hlow middle own hmiddle =>
    constructor
    · rintro ⟨⟩
      exact ⟨middle, by omega, by omega, hmiddle⟩
    · rintro ⟨n, -, -, hn⟩
      rcases Nat.lt_trichotomy n middle with hlt | rfl | hlt
      · exact absurd (hless hn hmiddle hlt) (Nat.lt_irrefl _)
      · rw [hmiddle] at hn
        cases hn
        rfl
      · exact absurd (hless hmiddle hn hlt) (Nat.lt_irrefl _)
  | case3 low high hlow middle found own hmiddle hne hlt ih =>
    refine (ih hhigh).trans
      ⟨fun ⟨n, hle, hn, hentry⟩ => ⟨n, by omega, hn, hentry⟩, fun ⟨n, hle, hn, hentry⟩ => ⟨n, ?_, hn, hentry⟩⟩
    rcases Nat.lt_trichotomy n middle with hbefore | rfl | hafter
    · have := hless hentry hmiddle hbefore
      omega
    · rw [hmiddle] at hentry
      cases hentry
      exact absurd rfl hne
    · exact hafter
  | case4 low high hlow middle found own hmiddle hne hlt ih =>
    refine (ih (by omega)).trans
      ⟨fun ⟨n, hle, hn, hentry⟩ => ⟨n, hle, by omega, hentry⟩, fun ⟨n, hle, hn, hentry⟩ => ⟨n, hle, ?_, hentry⟩⟩
    rcases Nat.lt_trichotomy n middle with hbefore | rfl | hafter
    · exact hbefore
    · rw [hmiddle] at hentry
      cases hentry
      exact absurd rfl hne
    · have := hless hmiddle hentry hafter
      omega
  | case5 low high hlow =>
    refine ⟨nofun, fun ⟨n, hle, hn, _⟩ => ?_⟩
    omega

/-- The flaw of a token is the one that is listed under its index. -/
theorem flaw?_eq_some {text : List Char} {index : Nat} {flaw : Flaw} :
    (ofText text).flaw? index = some flaw ↔ (index, flaw) ∈ (ofText text).flaws := by
  have hrising : (ofText text).flaws.toList.Pairwise fun entry next => entry.1 < next.1 := by
    rw [flaws_ofText]
    exact pairwise_entries 0 _
  rw [flaw?, search_eq_some hrising (Nat.le_refl _), Array.mem_iff_getElem?]
  refine ⟨fun ⟨n, _, _, hn⟩ => ⟨n, hn⟩, fun ⟨n, hn⟩ => ⟨n, Nat.zero_le n, ?_, hn⟩⟩
  exact (Array.getElem?_eq_some_iff.mp hn).1

end Lexed

/-- The index of the token of a lexeme that comes after others: the last one of those placed up to it. -/
def Layout.seat (before : List Lexeme) (lexeme : Lexeme) : Nat :=
  (start.placed ((before ++ [lexeme]).map Token.ofLexeme)).length - 1

/-- The entries that are due to a lexeme that comes after others. -/
def Layout.entriesOf (before : List Lexeme) (lexeme : Lexeme) : List (Nat × Flaw) :=
  (if (reach before).strays lexeme then [(seat before lexeme - 1, .unmatchedUnindent)] else []) ++
    lexeme.flaw?.toList.map fun flaw => (seat before lexeme, flaw)

/-- The entries that are due to lexemes that come after others. -/
def Layout.entries (before : List Lexeme) : List Lexeme → List (Nat × Flaw)
  | [] => []
  | lexeme :: lexemes => entriesOf before lexeme ++ entries (before ++ [lexeme]) lexemes

namespace Layout

private theorem rising_reach (before : List Lexeme) : Rising (reach before).blocks := by
  have h := @rising_steps start rising_nil before
  rw [reach, after, List.foldl_map]
  exact h

theorem placed_append (layout : Layout) (tokens others : List Token) :
    layout.placed (tokens ++ others) = layout.placed tokens ++ (layout.after tokens).placed others := by
  induction tokens generalizing layout with
  | nil => rfl
  | cons token tokens ih =>
    rw [List.cons_append, placed, ih, placed, List.append_assoc]
    rfl

/-- The tokens placed for a lexeme that comes after others, the place of the last of them, and the token that
opens a block for it if it strays. -/
theorem placed_concat (before : List Lexeme) (lexeme : Lexeme) :
    ∃ (front : List Token) (own : Token), start.placed ((before ++ [lexeme]).map Token.ofLexeme) =
        front ++ (if (reach before).strays lexeme then [Token.strayIndent] else []) ++ [own] ∧
      own.text = lexeme.text ∧ own.flaw = lexeme.flaw? ∧
      Lexed.entries 0 front = Lexed.entries 0 (start.placed (before.map Token.ofLexeme)) := by
  obtain ⟨opening, own, hstep, hflawless, htext, hflaw⟩ := step_flaws (rising_reach before) lexeme
  refine ⟨start.placed (before.map Token.ofLexeme) ++ opening, own, ?_, htext, hflaw, ?_⟩
  · rw [List.map_append, placed_append, List.map_singleton, placed, placed, List.append_nil,
      List.append_assoc, List.append_assoc, ← List.append_assoc opening]
    exact congrArg _ hstep
  · rw [Lexed.entries_append, Lexed.entries_flawless hflawless, List.append_nil]

theorem entries_concat (before : List Lexeme) (lexeme : Lexeme) :
    Lexed.entries 0 (start.placed ((before ++ [lexeme]).map Token.ofLexeme)) =
      Lexed.entries 0 (start.placed (before.map Token.ofLexeme)) ++ entriesOf before lexeme := by
  obtain ⟨front, own, hplaced, -, hflaw, hfront⟩ := placed_concat before lexeme
  rw [entriesOf, seat, hplaced, Lexed.entries_append, Lexed.entries_append, hfront]
  cases (reach before).strays lexeme <;> simp [Lexed.entries, hflaw, Token.strayIndent]

/-- The entries of the tokens are those due to the lexemes. The induction is on the lexemes that are left. -/
private theorem entries_placed (before lexemes : List Lexeme) :
    Lexed.entries 0 (start.placed ((before ++ lexemes).map Token.ofLexeme)) =
      Lexed.entries 0 (start.placed (before.map Token.ofLexeme)) ++ entries before lexemes := by
  induction lexemes generalizing before with
  | nil => rw [List.append_nil, entries, List.append_nil]
  | cons lexeme lexemes ih =>
    rw [List.append_cons, ih, entries_concat, entries, List.append_assoc]

private theorem flaw_finish (layout : Layout) : ∀ token ∈ layout.finish, token.flaw = none := by
  intro token hmem
  rcases List.mem_append.mp hmem with hend | hclose
  · split at hend
    · cases hend
    · rw [List.mem_singleton.mp hend]
      rfl
  · obtain ⟨_, _, rfl⟩ := List.mem_map.mp hclose
    rfl

private theorem ofText_eq_placed (text : List Char) : Token.ofText text =
    start.placed ((Lexeme.ofText text).map Token.ofLexeme) ++ (reach (Lexeme.ofText text)).finish := by
  rw [Token.ofText, tokens_eq_placeAll, placeAll_eq, reach]

end Layout

/-- The flaws of a text are those due to its lexemes. -/
theorem Lexed.flaws_eq (text : List Char) :
    (ofText text).flaws.toList = Layout.entries [] (Lexeme.ofText text) := by
  rw [flaws_ofText, Layout.ofText_eq_placed, entries_append, entries_flawless (Layout.flaw_finish _),
    List.append_nil, ← List.nil_append (Lexeme.ofText text), Layout.entries_placed]
  rfl

/-- The token of a lexeme stands at its seat, the one that opens a block for it before that. -/
theorem Layout.getElem?_seat {text : List Char} {before after : List Lexeme} {lexeme : Lexeme}
    (h : Lexeme.ofText text = before ++ lexeme :: after) :
    (∃ own : Token, (Token.ofText text)[seat before lexeme]? = some own ∧ own.text = lexeme.text ∧
      own.flaw = lexeme.flaw?) ∧
    ((reach before).strays lexeme → 0 < seat before lexeme ∧
      (Token.ofText text)[seat before lexeme - 1]? = some Token.strayIndent) := by
  obtain ⟨front, own, hplaced, htext, hflaw, -⟩ := placed_concat before lexeme
  obtain ⟨rest, hrest⟩ : ∃ rest, Token.ofText text =
      start.placed ((before ++ [lexeme]).map Token.ofLexeme) ++ rest := by
    rw [ofText_eq_placed, h, List.append_cons, List.map_append]
    rw [placed_append, List.append_assoc]
    exact ⟨_, rfl⟩
  rw [hrest, seat, hplaced]
  cases (reach before).strays lexeme with
  | false => exact ⟨⟨own, by simp, htext, hflaw⟩, fun h => absurd h Bool.false_ne_true⟩
  | true => exact ⟨⟨own, by simp, htext, hflaw⟩, fun _ => by simp⟩

end Syntax

end QuantumScript
