import QuantumScript.Proofs.Printing.Phrases
import QuantumScript.Proofs.Printing.Lines
/-!
# Levels of binding

The rules of expressions form levels, from atoms up to lists without parentheses. What a level reads
as one tree the looser levels read too, unless one of their operators comes next.
-/

namespace QuantumScript

namespace Syntax

open Production

/-- Rank of the tightest level that goes on at the token. Where a new expression could begin, no
expression ends. -/
def TokenKind.binding : TokenKind → Nat
  | .symbol .leftParen | .symbol .leftBracket | .symbol .dot => 2
  | .symbol .doubleStar => 3
  | .symbol .star | .symbol .slash | .symbol .doubleSlash | .symbol .percent | .symbol .at => 5
  | .symbol .plus | .symbol .minus => 6
  | .symbol .shiftLeft | .symbol .shiftRight => 7
  | .symbol .ampersand => 8
  | .symbol .caret => 9
  | .symbol .bar => 10
  | .symbol .less | .symbol .greater | .symbol .equality | .symbol .inequality
  | .symbol .lessEqual | .symbol .greaterEqual | .keyword .inWord | .keyword .isWord
  | .keyword .notWord => 11
  | .keyword .andWord => 13
  | .keyword .orWord => 14
  | .keyword .ifWord => 15
  | .symbol .comma => 16
  | kind => if expressionFirst.contains kind then 0 else callDepth

/-- What the rule has read ends before the tokens. -/
def Stops (rule : Rule) (rest : List Token) : Prop := rule.rank < (Token.nextKind rest).binding

/-- The words begin an expression of the rule, and not an argument with its name. -/
structure Opens (rule : Rule) (words : List Token) : Prop where
  next : rule.first.contains (Token.nextKind words) = true
  unlabelled : Token.nextKind words = .name → Token.secondKind words ≠ .symbol .equals

/-- Plain words whose brackets match. -/
structure Sound (words : List Token) : Prop where
  plain : ∀ token ∈ words, token.Plain
  balanced : ∀ depth, Layout.nestAll depth words = depth

/-- The rule reads the print as one tree. -/
structure Fits (rule : Rule) (print : Print) : Prop where
  tree : ∃ tree, print.trees = [tree] ∧ tree.nodeKind? ≠ some .forClause
  opens : Opens rule print.words
  takes : ∀ rest, Stops rule rest → Takes (.call rule) true print rest
  sound : Sound print.words

variable {inner outer rule : Rule} {kinds : List TokenKind} {words more rest : List Token}
  {print next : Print}

namespace Stops

theorem of_next (kind : TokenKind) (hnext : Token.nextKind rest = kind)
    (h : rule.rank < kind.binding) : Stops rule rest := by
  rw [Stops, hnext]
  exact h

theorem mono (h : Stops outer rest) (hrank : inner.rank ≤ outer.rank) : Stops inner rest :=
  Nat.lt_of_le_of_lt hrank h

/-- No token comes next that the rule or a tighter one goes on at. -/
theorem not_at (h : Stops rule rest) (hkinds : ∀ kind ∈ kinds, kind.binding ≤ rule.rank) :
    kinds.contains (Token.nextKind rest) = false := by
  rw [List.contains_eq_mem, decide_eq_false_iff_not]
  intro hmem
  have hbinding := hkinds _ hmem
  unfold Stops at h
  omega

private theorem binding_ne_four (kind : TokenKind) : kind.binding ≠ 4 := by
  cases kind with
  | symbol symbol => cases symbol <;> decide
  | keyword keyword => cases keyword <;> decide
  | _ => decide

/-- No operator comes between powers and signs. -/
theorem factor_of_power (h : Stops .power rest) : Stops .factor rest := by
  have hne := binding_ne_four (Token.nextKind rest)
  unfold Stops at h ⊢
  simp only [Rule.rank] at h ⊢
  omega

end Stops

namespace Opens

theorem nonempty (h : Opens rule words) : words ≠ [] := by
  rintro rfl
  have hnext := h.next
  cases rule <;> cases hnext

theorem next_append (h : Opens rule words) (more : List Token) :
    rule.first.contains (Token.nextKind (words ++ more)) = true := by
  rw [Token.nextKind_append h.nonempty]
  exact h.next

theorem mono (h : Opens inner words) (hfirst : ∀ kind ∈ inner.first, kind ∈ outer.first) :
    Opens outer words := by
  refine ⟨?_, h.unlabelled⟩
  have hnext := h.next
  rw [List.contains_iff_mem] at hnext ⊢
  exact hfirst _ hnext

theorem append (h : Opens rule words) (hmore : Token.nextKind more ≠ .symbol .equals) :
    Opens rule (words ++ more) := by
  refine ⟨h.next_append more, ?_⟩
  intro hname
  cases words with
  | nil => exact absurd rfl h.nonempty
  | cons token words =>
    cases words with
    | nil => exact hmore
    | cons second words => exact h.unlabelled hname

/-- A token comes first that is no name. -/
theorem of_token {token : Token} (h : rule.first.contains token.kind = true)
    (hname : token.kind ≠ .name) (words : List Token) : Opens rule (token :: words) :=
  ⟨h, fun heq => absurd heq hname⟩

theorem not_at (h : Opens rule words) (hkinds : ∀ kind ∈ kinds, kind ∉ rule.first)
    (more : List Token) : kinds.contains (Token.nextKind (words ++ more)) = false := by
  have hnext := h.next_append more
  rw [List.contains_eq_mem, decide_eq_false_iff_not]
  intro hmem
  exact hkinds _ hmem (by simpa using hnext)

theorem starts (h : Opens rule words) (hkinds : ∀ kind ∈ rule.first, kind ∈ kinds)
    (more : List Token) : kinds.contains (Token.nextKind (words ++ more)) = true := by
  have hnext := h.next_append more
  rw [List.contains_iff_mem] at hnext ⊢
  exact hkinds _ hnext

end Opens

namespace Layout

theorem nestAll_append (depth : Nat) (words more : List Token) :
    nestAll depth (words ++ more) = nestAll (nestAll depth words) more :=
  List.foldl_append ..

end Layout

namespace Sound

theorem nil : Sound [] := ⟨List.forall_mem_nil _, fun _ => rfl⟩

theorem append (hwords : Sound words) (hmore : Sound more) : Sound (words ++ more) := by
  refine ⟨?_, ?_⟩
  · intro token hmem
    rcases List.mem_append.mp hmem with hmem | hmem
    · exact hwords.plain token hmem
    · exact hmore.plain token hmem
  · intro depth
    rw [Layout.nestAll_append, hwords.balanced, hmore.balanced]

/-- A plain token that is no bracket. -/
theorem cons {token : Token} (hplain : token.Plain) (hopens : token.kind.opens = false)
    (hcloses : token.kind.closes = false) (hwords : Sound words) : Sound (token :: words) := by
  refine ⟨?_, ?_⟩
  · intro other hmem
    rcases List.mem_cons.mp hmem with rfl | hmem
    · exact hplain
    · exact hwords.plain other hmem
  · intro depth
    change Layout.nestAll (Layout.nest depth token.kind) words = depth
    rw [Layout.nest, hopens, hcloses]
    exact hwords.balanced depth

theorem word (keyword : Keyword) (hwords : Sound words) : Sound (Token.word keyword :: words) :=
  cons (Token.plain_word keyword) rfl rfl hwords

theorem mark {symbol : Symbol} (hopens : TokenKind.opens (.symbol symbol) = false)
    (hcloses : TokenKind.closes (.symbol symbol) = false) (hwords : Sound words) :
    Sound (Token.mark symbol :: words) :=
  cons (Token.plain_mark symbol) hopens hcloses hwords

theorem between {bracket : Bracket} (hprint : Sound print.words) :
    Sound (Print.between bracket print).words := by
  change Sound (Token.mark bracket.opening :: (print.words ++ [Token.mark bracket.closing]))
  refine ⟨?_, ?_⟩
  · intro token hmem
    rcases List.mem_cons.mp hmem with rfl | hmem
    · exact Token.plain_mark bracket.opening
    rcases List.mem_append.mp hmem with hmem | hmem
    · exact hprint.plain token hmem
    · obtain rfl := List.mem_singleton.mp hmem
      exact Token.plain_mark bracket.closing
  · intro depth
    have hopen : Layout.nest depth (.symbol bracket.opening) = depth + 1 := by
      cases bracket <;> rfl
    have hclose : Layout.nest (depth + 1) (.symbol bracket.closing) = depth := by
      cases bracket <;> rfl
    change Layout.nestAll (Layout.nest depth (.symbol bracket.opening))
      (print.words ++ [Token.mark bracket.closing]) = depth
    rw [Layout.nestAll_append, hprint.balanced, hopen]
    exact hclose

end Sound

namespace Rule

/-- From tight to loose. -/
def levels : List Rule :=
  [.atom, .chain, .power, .factor, .product, .sum, .shift, .bitAnd, .bitXor, .bitOr, .comparison,
    .negation, .conjunction, .disjunction, .expression, .expressionList]

/-- Levels whose operators group from the left. -/
def joints : List Rule :=
  [.product, .sum, .shift, .bitAnd, .bitXor, .bitOr, .comparison, .conjunction, .disjunction]

def joint (operators : List TokenKind) (operand : Production) : Production :=
  whenAt operators (.seq (.wrap .binary (.seq .advance operand)) (.answer true))

/-- An operator and the operand after it. -/
def round : Rule → Production
  | .disjunction => joint [.keyword .orWord] (.call .conjunction)
  | .conjunction => joint [.keyword .andWord] (.call .negation)
  | .comparison =>
    .cond (.ask (.atPair [.keyword .notWord] (.keyword .inWord)))
      (.wrap .binary <| steps [.bump (.keyword .notWord), .bump (.keyword .inWord), .call .bitOr]) <|
    whenAt comparisonOperators <| .wrap .binary <|
      .seq (.cond (eat (.keyword .isWord)) (eat (.keyword .notWord)) .advance) (.call .bitOr)
  | .bitOr => joint [.symbol .bar] (.call .bitXor)
  | .bitXor => joint [.symbol .caret] (.call .bitAnd)
  | .bitAnd => joint [.symbol .ampersand] (.call .shift)
  | .shift => joint [.symbol .shiftLeft, .symbol .shiftRight] (.call .sum)
  | .sum => joint [.symbol .plus, .symbol .minus] (.call .product)
  | .product =>
    joint [.symbol .star, .symbol .slash, .symbol .doubleSlash, .symbol .percent, .symbol .at]
      (.call .factor)
  | _ => .answer false

/-- A level of operators reads an operand and goes on as long as there are operators. -/
theorem grammar_joint (h : rule ∈ joints) :
    grammar rule =
      .cond (.call rule.tighter) (.seq (.loop rule.round) (.answer true)) (.answer false) := by
  cases rule with
  | disjunction | conjunction | comparison | bitOr | bitXor | bitAnd | shift | sum | product => rfl
  | _ => exact absurd h (by decide)

private theorem tighter_level : ∀ rule ∈ levels, 1 < rule.rank →
    rule.tighter ∈ levels ∧ rule.tighter.rank + 1 = rule.rank := by
  decide

theorem one_le_rank : ∀ rule ∈ levels, 1 ≤ rule.rank := by
  decide

theorem rank_le : ∀ rule ∈ levels, rule.rank ≤ Rule.expressionList.rank := by
  decide

theorem level_eq_of_rank : ∀ rule ∈ levels, ∀ other ∈ levels,
    rule.rank = other.rank → rule = other := by
  decide

private theorem first_tighter (rule : Rule) : ∀ kind ∈ rule.tighter.first, kind ∈ rule.first := by
  cases rule <;> decide

theorem round_none (hrule : rule ∈ joints) (h : Stops rule rest) :
    Takes rule.round false .empty rest := by
  have hjoint {kinds : List TokenKind} (operand : Production)
      (hkinds : ∀ kind ∈ kinds, kind.binding ≤ rule.rank) :
      Takes (joint kinds operand) false .empty rest := takes_whenAt_none (h.not_at hkinds)
  cases rule with
  | comparison =>
    refine Turns.pair_no ?_ (takes_whenAt_none (h.not_at (by decide)))
    intro hnot
    rw [Print.empty, List.nil_append, h.not_at (by decide)] at hnot
    cases hnot
  | disjunction | conjunction | bitOr | bitXor | bitAnd | shift | sum | product =>
    exact hjoint _ (by decide)
  | _ => exact absurd hrule (by decide)

end Rule

theorem takes_listOf_one {item : Production} (h : Takes item true print rest)
    (hcomma : Token.nextKind rest ≠ .symbol .comma) : Takes (listOf item) true print rest :=
  Takes.cond_still h (Turns.at_no (by simpa using hcomma) (Takes.answered true))

namespace Fits

private theorem loosen (hlevel : rule ∈ Rule.levels) (hrank : 1 < rule.rank)
    (h : Fits rule.tighter print) : Fits rule print := by
  refine ⟨h.tree, h.opens.mono (Rule.first_tighter rule), ?_, h.sound⟩
  intro rest hrest
  have hless := (Rule.tighter_level rule hlevel hrank).2
  have hinner := h.takes rest (hrest.mono (by omega))
  have hjoint (hmem : rule ∈ Rule.joints) : Takes (grammar rule) true print rest := by
    rw [Rule.grammar_joint hmem]
    exact Takes.cond_still hinner (Takes.seq_answer (Turns.loop_no (Rule.round_none hmem hrest)))
  apply Turns.call
  cases rule with
  | disjunction | conjunction | comparison | bitOr | bitXor | bitAnd | shift | sum | product =>
    exact hjoint (by decide)
  | expressionList =>
    have hcomma : [TokenKind.symbol .comma].contains (Token.nextKind rest) = false :=
      hrest.not_at (by decide)
    exact takes_listOf_one hinner (by simpa using hcomma)
  | expression =>
    refine Turns.at_no (h.opens.not_at (by decide) rest) (Takes.cond_still hinner ?_)
    exact Turns.at_no (hrest.not_at (by decide)) (Takes.answered true)
  | negation => exact Turns.at_no (h.opens.not_at (by decide) rest) hinner
  | factor => exact Turns.at_no (h.opens.not_at (by decide) rest) hinner
  | power =>
    refine Takes.cond_still hinner ?_
    exact Turns.at_no (hrest.not_at (by decide)) (Takes.answered true)
  | chain =>
    refine Takes.cond_still hinner ?_
    exact Turns.at_no (hrest.not_at (by decide)) (Takes.answered true)
  | atom => exact absurd hrank (by decide)
  | _ => exact absurd hlevel (by decide)

/-- All looser levels read what a level reads. The induction is on the levels between. -/
theorem at_level (h : Fits inner print) (hinner : inner ∈ Rule.levels)
    (houter : outer ∈ Rule.levels) (hrank : inner.rank ≤ outer.rank) : Fits outer print := by
  obtain ⟨distance, hdistance⟩ := Nat.exists_eq_add_of_le hrank
  induction distance generalizing outer with
  | zero =>
    obtain rfl := Rule.level_eq_of_rank inner hinner outer houter hdistance.symm
    exact h
  | succ distance ih =>
    have hpos : 1 ≤ inner.rank := Rule.one_le_rank inner hinner
    obtain ⟨hlevel, hless⟩ := Rule.tighter_level outer houter (by omega)
    exact loosen houter (by omega) (ih hlevel (by omega) (by omega))

end Fits

end Syntax

end QuantumScript
