import QuantumScript.Proofs.Printing.Lists
/-!
# Atoms

Names, literals, and expressions in brackets of their own are read as atoms, so they stand anywhere.
-/

namespace QuantumScript

namespace Syntax

open Production

variable {rule level : Rule} {bracket : Bracket} {rest : List Token} {print clauses : Print}
  {prints : List Print}

/-- What holds of all the kinds holds of the word. -/
theorem Word.of_kinds {kinds : List TokenKind} (word : Word kinds) {p : TokenKind → Prop}
    (h : ∀ kind ∈ kinds, p kind) : p word.token.kind :=
  h _ (by simpa using word.kind)

theorem Word.starts {kinds others : List TokenKind} (word : Word kinds)
    (h : ∀ kind ∈ kinds, others.contains kind = true) :
    others.contains word.token.kind = true :=
  word.of_kinds h

theorem Word.kind_name (name : Name) : name.token.kind = .name := by
  simpa using name.kind

private theorem Word.kind_quoted (quoted : Quoted) : quoted.token.kind = .quoted := by
  simpa using quoted.kind

private theorem Word.sound {kinds : List TokenKind} (word : Word kinds)
    (h : ∀ kind ∈ kinds, kind.opens = false ∧ kind.closes = false) {words : List Token}
    (hwords : Sound words) : Sound (word.token :: words) := by
  have hkind := word.of_kinds h
  exact Sound.cons word.plain hkind.1 hkind.2 hwords

theorem fits_name (name : Name) : Fits .atom (.name name) := by
  have hkind := name.kind_name
  have hnext (rest : List Token) : Token.nextKind ((Print.name name).words ++ rest) = .name := hkind
  have hfirst : Rule.atom.first.contains name.token.kind = true := name.starts (by decide)
  refine ⟨⟨_, rfl, nofun⟩, ⟨hfirst, nofun⟩, ?_, name.sound (by decide) Sound.nil⟩
  intro rest _
  refine Turns.call (Turns.at_no ?_ (Turns.at_yes ?_ (Takes.node (Takes.bump hkind))))
  · rw [hnext]
    rfl
  · rw [hnext]
    rfl

/-- Strings that follow each other. The induction is on the strings. -/
private theorem takes_quoted (strings : List Quoted) (hrest : Token.nextKind rest ≠ .quoted) :
    Takes (.loop (eat .quoted)) true (.leaves (strings.map Word.token)) rest := by
  induction strings with
  | nil => exact Turns.loop_no (takes_eat_none hrest)
  | cons quoted strings ih =>
    exact Takes.loop_yes (takes_eat quoted.kind_quoted) (List.cons_ne_nil _ _) ih

private theorem takes_literal {words : List Token} {trees : List Tree} {token : Token}
    (hfirst : literalFirst.contains token.kind = true)
    (h : Takes (.cond (next .quoted) (.loop (eat .quoted)) .advance) true ⟨token :: words, trees⟩
      rest) :
    Takes (.call .atom) true (Print.node .literal ⟨token :: words, trees⟩) rest :=
  Turns.call (Turns.at_yes hfirst (Turns.demand hfirst (Takes.node h)))

theorem fits_literal (literal : Literal) : Fits .atom ((Print.leaf literal.token).node .literal) := by
  have hfirst : Rule.atom.first.contains literal.token.kind = true := literal.starts (by decide)
  have hkind : literalFirst.contains literal.token.kind = true := literal.starts (by decide)
  have hne : literal.token.kind ≠ .quoted :=
    literal.of_kinds (p := (· ≠ .quoted)) (by decide)
  have hend : literal.token.kind ≠ .endOfInput :=
    literal.of_kinds (p := (· ≠ .endOfInput)) (by decide)
  refine ⟨⟨_, rfl, nofun⟩, ⟨hfirst, nofun⟩, ?_, literal.sound (by decide) Sound.nil⟩
  intro rest _
  exact takes_literal hkind (Turns.at_no (by simpa [Token.nextKind] using hne)
    (Takes.advance hend))

theorem fits_strings (first : Quoted) (others : List Quoted) :
    Fits .atom ((Print.leaf first.token ++ .leaves (others.map Word.token)).node .literal) := by
  have hfirst : Rule.atom.first.contains first.token.kind = true := first.starts (by decide)
  have hkind : literalFirst.contains first.token.kind = true := first.starts (by decide)
  have hquoted : [TokenKind.quoted].contains first.token.kind = true := first.starts (by decide)
  have hname : first.token.kind ≠ .name := first.of_kinds (p := (· ≠ .name)) (by decide)
  refine ⟨⟨_, rfl, nofun⟩, Opens.of_token hfirst hname _, ?_, ?_⟩
  · intro rest hrest
    have hnone : [TokenKind.quoted].contains (Token.nextKind rest) = false :=
      hrest.not_at (by decide)
    have hall := takes_quoted (first :: others) (by simpa using hnone)
    exact takes_literal hkind (Turns.at_yes hquoted hall)
  · change Sound ((first :: others).map Word.token)
    induction first :: others with
    | nil => exact Sound.nil
    | cons quoted strings ih =>
      exact quoted.sound (by decide) ih

namespace Bracket

/-- The node of an atom in these brackets that is no comprehension. -/
def kind : Bracket → NodeKind
  | .round => .parenthesized
  | .square => .list
  | .curly => .dictionary

def body : Bracket → Production
  | .round =>
    steps
      [ .bump (.symbol .leftParen),
        .cond (next (.symbol .rightParen)) (.answer true)
          (.seq (.call .expressionList) (.call .clauses)),
        expect (.symbol .rightParen) ]
  | .square =>
    bracketed (.symbol .leftBracket) (.symbol .rightBracket) expressionFirst <|
      .cond (.call .expression) (.seq (.call .clauses) (.answer true)) (.answer false)
  | .curly =>
    bracketed (.symbol .leftBrace) (.symbol .rightBrace) expressionFirst <|
      .cond (.call .expression)
        (steps
          [ .cond (eat (.symbol .colon)) (.call .expression) (.answer false),
            .call .clauses,
            .answer true ])
        (.answer false)

private theorem grammar_rule (bracket : Bracket) :
    grammar bracket.rule = .node (.unlessComprehension bracket.kind) bracket.body := by
  cases bracket <;> rfl

end Bracket

private theorem mem_between {tree : Tree} :
    tree ∈ (Print.between bracket print).trees ↔
      tree = (Token.mark bracket.opening).leaf ∨ tree ∈ print.trees ∨
        tree = (Token.mark bracket.closing).leaf := by
  change tree ∈ (Token.mark bracket.opening).leaf ::
    (print.trees ++ [(Token.mark bracket.closing).leaf]) ↔ _
  simp

private theorem fits_between {kind : NodeKind} (hkind : kind ≠ .forClause)
    (hlabel : (Label.unlessComprehension bracket.kind).resolve (Print.between bracket print).trees =
      kind)
    (hsound : Sound print.words)
    (h : ∀ rest, Takes bracket.body true (Print.between bracket print) rest) :
    Fits .atom ((Print.between bracket print).node kind) := by
  have hfirst : Rule.atom.first.contains (.symbol bracket.opening) = true := by
    cases bracket <;> rfl
  have hname : TokenKind.symbol bracket.opening ≠ .name := nofun
  refine ⟨⟨_, rfl, by simpa [Tree.nodeKind?] using hkind⟩, Opens.of_token hfirst hname _, ?_,
    Sound.between hsound⟩
  intro rest _
  have hrule : Takes (.call bracket.rule) true ((Print.between bracket print).node kind) rest := by
    apply Turns.call
    rw [bracket.grammar_rule]
    exact Takes.labelled hlabel (h rest)
  apply Turns.call
  cases bracket with
  | round => exact Turns.at_no rfl (Turns.at_no rfl (Turns.at_yes rfl hrule))
  | square => exact Turns.at_no rfl (Turns.at_no rfl (Turns.at_no rfl (Turns.at_yes rfl hrule)))
  | curly =>
    exact Turns.at_no rfl
      (Turns.at_no rfl (Turns.at_no rfl (Turns.at_no rfl (Turns.at_yes rfl hrule))))

private theorem fits_clauseless (hclauseless : print.Clauseless) (hsound : Sound print.words)
    (h : ∀ rest, Takes bracket.body true (Print.between bracket print) rest) :
    Fits .atom ((Print.between bracket print).node bracket.kind) := by
  refine fits_between (by cases bracket <;> decide) ?_ hsound h
  rw [Label.resolve, if_neg]
  simp only [List.any_eq_true, decide_eq_true_eq, not_exists, not_and]
  intro tree hmem
  rcases mem_between.mp hmem with rfl | hmem | rfl
  · exact Option.some_ne_none _ ∘ Eq.symm
  · exact hclauseless tree hmem
  · exact Option.some_ne_none _ ∘ Eq.symm

private theorem fits_clause (hclause : ∃ tree ∈ print.trees, tree.nodeKind? = some .forClause)
    (hsound : Sound print.words)
    (h : ∀ rest, Takes bracket.body true (Print.between bracket print) rest) :
    Fits .atom ((Print.between bracket print).node .comprehension) := by
  refine fits_between nofun ?_ hsound h
  obtain ⟨tree, hmem, htree⟩ := hclause
  rw [Label.resolve, if_pos]
  rw [List.any_eq_true]
  exact ⟨tree, mem_between.mpr (Or.inr (Or.inl hmem)), by simpa using htree⟩

private theorem clausesStop_of_closing (bracket : Bracket)
    (h : [TokenKind.symbol .comma, .symbol bracket.closing].contains (Token.nextKind rest) = true) :
    ClausesStop rest := by
  have hstop {kind : TokenKind} (hnext : Token.nextKind rest = kind)
      (hkind : Rule.expression.rank < kind.binding) (hfor : kind ≠ .keyword .forWord) :
      ClausesStop rest := ⟨Stops.of_next kind hnext hkind, hnext ▸ hfor⟩
  simp only [List.contains_iff_mem, List.mem_cons, List.not_mem_nil, or_false] at h
  rcases h with h | h
  · exact hstop h (by decide) nofun
  · cases bracket <;> exact hstop h (by decide) nofun

private theorem Fits.clauseless (h : Fits rule print) : print.Clauseless := by
  obtain ⟨tree, htree, hnone⟩ := h.tree
  intro other hmem
  rw [htree] at hmem
  obtain rfl := List.mem_singleton.mp hmem
  exact hnone

section Parentheses

theorem fits_unit : Fits .atom ((Print.between .round .empty).node .parenthesized) := by
  refine fits_clauseless nofun Sound.nil fun rest => ?_
  exact Takes.seq (Takes.bump rfl)
    (Takes.skip (Turns.at_yes rfl (Takes.answered true)) (takes_expect rfl))

/-- An expression of any level in parentheses. -/
theorem fits_parenthesized (h : Fits rule print) (hlevel : rule ∈ Rule.levels) :
    Fits .atom ((Print.between .round print).node .parenthesized) := by
  have hlist : Fits .expressionList print :=
    h.at_level hlevel (by decide) (Rule.rank_le rule hlevel)
  refine fits_clauseless h.clauseless h.sound fun rest => ?_
  have hstop : Stops .expressionList (Token.mark .rightParen :: rest) :=
    Stops.of_next (.symbol .rightParen) rfl (by decide)
  have hinside := Takes.seq_still (hlist.takes _ hstop) (takes_noClauses nofun)
  have hnext : [TokenKind.symbol .rightParen].contains
      (Token.nextKind (print.words ++ Token.mark .rightParen :: rest)) = false :=
    hlist.opens.not_at (by decide) _
  exact Takes.seq (Takes.bump rfl) (Takes.seq (Turns.at_no hnext hinside) (takes_expect rfl))

theorem fits_generator (h : Fits .expression print) (hclauses : Comprehension clauses) :
    Fits .atom ((Print.between .round (print ++ clauses)).node .comprehension) := by
  have hlist : Fits .expressionList print := h.at_level (by decide) (by decide) (by decide)
  obtain ⟨tree, hmem, htree⟩ := hclauses.clause
  refine fits_clause ⟨tree, List.mem_append_right _ hmem, htree⟩ (h.sound.append hclauses.sound)
    fun rest => ?_
  have hstop : Stops .expressionList (clauses.words ++ Token.mark .rightParen :: rest) :=
    Stops.of_next (.keyword .forWord) (hclauses.begins _) (by decide)
  have hclosing : ClausesStop (Token.mark .rightParen :: rest) :=
    clausesStop_of_closing .round rfl
  have hinside := Takes.seq (hlist.takes _ hstop) (hclauses.takes _ hclosing)
  have hnext : [TokenKind.symbol .rightParen].contains
      (Token.nextKind (print.words ++ (clauses.words ++ Token.mark .rightParen :: rest))) = false :=
    hlist.opens.not_at (by decide) _
  refine Takes.seq (Takes.bump rfl) (Takes.seq (Turns.at_no ?_ hinside) (takes_expect rfl))
  rw [Print.words_append, List.append_assoc]
  exact hnext

end Parentheses

/-- The script of one item of a list or a dictionary. -/
def Bracket.item : Bracket → Production
  | .curly =>
    .cond (.call .expression)
      (steps
        [ .cond (eat (.symbol .colon)) (.call .expression) (.answer false),
          .call .clauses,
          .answer true ])
      (.answer false)
  | _ => .cond (.call .expression) (.seq (.call .clauses) (.answer true)) (.answer false)

/-- An item to which the clauses of a comprehension may be added. -/
structure Head (bracket : Bracket) (print : Print) : Prop where
  clauseless : print.Clauseless
  opens : Opens .expression print.words
  takes : ∀ (clauses : Print) (answer : Bool) (rest : List Token),
    Takes (.call .clauses) answer clauses rest → Stops .expression (clauses.words ++ rest) →
    Token.nextKind (clauses.words ++ rest) ≠ .symbol .colon →
    Takes bracket.item true (print ++ clauses) rest
  sound : Sound print.words

namespace Head

theorem element (h : Fits .expression print) (bracket : Bracket) : Head bracket print := by
  refine ⟨h.clauseless, h.opens, ?_, h.sound⟩
  intro clauses answer rest hclauses hstop hcolon
  have hitem := h.takes _ hstop
  cases bracket with
  | curly =>
    have hnone : Takes (.cond (eat (.symbol .colon)) (.call .expression) (.answer false)) false
        .empty (clauses.words ++ rest) := Turns.eat_no hcolon (Takes.answered false)
    exact Takes.cond_yes hitem (Takes.skip hnone (Takes.seq_answer hclauses))
  | _ => exact Takes.cond_yes hitem (Takes.seq_answer hclauses)

theorem entry {key value : Print} (hkey : Fits .expression key) (hvalue : Fits .expression value) :
    Head .curly (key ++ (.mark .colon ++ value)) := by
  have hcolon : (Print.mark .colon ++ value).Clauseless :=
    (Print.clauseless_leaf _).append hvalue.clauseless
  have hsound : Sound (Print.mark .colon ++ value).words := Sound.mark rfl rfl hvalue.sound
  refine ⟨hkey.clauseless.append hcolon, hkey.opens.append nofun, ?_, hkey.sound.append hsound⟩
  intro clauses answer rest hclauses hstop _
  have hfirst := hkey.takes (Token.mark .colon :: (value.words ++ clauses.words ++ rest))
    (Stops.of_next (.symbol .colon) rfl (by decide))
  have hpair : Takes (.cond (eat (.symbol .colon)) (.call .expression) (.answer false)) true
      (Print.mark .colon ++ value) (clauses.words ++ rest) :=
    Takes.eat_yes rfl (hvalue.takes _ hstop)
  rw [Print.append_assoc]
  exact Takes.cond_yes hfirst (Takes.seq hpair (Takes.seq_answer hclauses))

private theorem listed (h : Head bracket print) :
    Listed bracket.item expressionFirst [.symbol .comma, .symbol bracket.closing] print := by
  refine ⟨h.opens.next, ?_, h.sound⟩
  intro rest hrest
  have hstop := clausesStop_of_closing bracket hrest
  have hcolon : Token.nextKind rest ≠ .symbol .colon := by
    intro heq
    rw [heq] at hrest
    cases bracket <;> cases hrest
  have hitem := h.takes .empty false rest (takes_noClauses hstop.clause) hstop.expression hcolon
  rw [Print.append_empty] at hitem
  exact hitem

private theorem listed_comprehension (h : Head bracket print) (hclauses : Comprehension clauses) :
    Listed bracket.item expressionFirst [.symbol .comma, .symbol bracket.closing]
      (print ++ clauses) := by
  refine ⟨h.opens.next_append _, ?_, h.sound.append hclauses.sound⟩
  intro rest hrest
  have hfor := hclauses.begins rest
  have hstop := hclauses.takes rest (clausesStop_of_closing bracket hrest)
  refine h.takes clauses true rest hstop (Stops.of_next _ hfor (by decide)) ?_
  rw [hfor]
  exact nofun

private theorem takes_body (hround : bracket ≠ .round)
    (h : ∀ print ∈ prints,
      Listed bracket.item expressionFirst [.symbol .comma, .symbol bracket.closing] print)
    (rest : List Token) :
    Takes bracket.body true (Print.between bracket (Print.items prints)) rest := by
  have hstart : ∀ kind ∈ [.symbol bracket.closing, .endOfInput], kind ∉ expressionFirst := by
    cases bracket <;> decide
  have hnone : expressionFirst.contains (.symbol bracket.closing) = false := by
    cases bracket <;> rfl
  have hitems := takes_bracketed hstart hnone h rest
  cases bracket with
  | round => exact absurd rfl hround
  | square => exact hitems
  | curly => exact hitems

/-- A list, a set or a dictionary. -/
theorem fits_items (bracket : Bracket) (hround : bracket ≠ .round) (h : ∀ print ∈ prints, Head bracket print) :
    Fits .atom ((Print.between bracket (Print.items prints)).node bracket.kind) :=
  fits_clauseless (Print.clauseless_items fun print hmem => (h print hmem).clauseless)
    (Print.sound_items fun print hmem => (h print hmem).sound)
    (takes_body hround fun print hmem => (h print hmem).listed)

theorem fits_comprehension (hround : bracket ≠ .round) (h : Head bracket print)
    (hclauses : Comprehension clauses) :
    Fits .atom ((Print.between bracket (print ++ clauses)).node .comprehension) := by
  obtain ⟨tree, hmem, htree⟩ := hclauses.clause
  have hone : ∀ other ∈ [print ++ clauses],
      Listed bracket.item expressionFirst [.symbol .comma, .symbol bracket.closing] other := by
    intro other hother
    obtain rfl := List.mem_singleton.mp hother
    exact h.listed_comprehension hclauses
  refine fits_clause ⟨tree, List.mem_append_right _ hmem, htree⟩ (h.sound.append hclauses.sound)
    fun rest => ?_
  have hbody := takes_body hround hone rest
  rw [Print.items, Print.others, Print.append_empty] at hbody
  exact hbody

end Head

/-- Whatever the level of an expression, its print for a looser place is read there. -/
theorem Fits.guard (h : Fits rule print) (hrule : rule ∈ Rule.levels)
    (hlevel : level ∈ Rule.levels) : Fits level (print.guard level rule) := by
  rw [Print.guard]
  split
  · exact (fits_parenthesized h hrule).at_level (by decide) hlevel (Rule.one_le_rank level hlevel)
  · rename_i hloose
    exact h.at_level hrule hlevel (Nat.le_of_not_lt hloose)

end Syntax

end QuantumScript
