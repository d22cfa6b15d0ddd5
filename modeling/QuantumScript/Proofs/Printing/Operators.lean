import QuantumScript.Proofs.Printing.Atoms
/-!
# Operators

Operators that group from the left take all that was read before them as their first operand. A print
that may be such an operand is followed by further operators of its level; what follows them decides
how the reading ends.
-/

namespace QuantumScript

namespace Syntax

open Production

/-- After the print, the rule goes on with the operators of its level that come next. -/
def Joins (rule : Rule) (print : Print) : Prop :=
  ∀ words trees rest, Stops rule.tighter (words ++ rest) →
    Turns (.loop rule.round) true print.trees words trees rest →
    Takes (.call rule) true ⟨print.words ++ words, trees⟩ rest

/-- After the parts of a chain, the chain goes on with the calls, subscripts and attributes that come
next. -/
def Trails (print : Print) : Prop :=
  ∀ words trees rest, trailerFirst.contains (Token.nextKind (words ++ rest)) = true →
    Turns (whileAt trailerFirst trailer) true print.trees words trees rest →
    Takes (.call .chain) true ⟨print.words ++ words, [.node .chain trees]⟩ rest

/-- The rule reads the print, and so it does where the print is the first operand of the rule. -/
structure Printed (rule : Rule) (print : Print) : Prop extends Fits rule print where
  level : rule ∈ Rule.levels
  joins : rule ∈ Rule.joints → Joins rule print
  trails : rule = .chain → Trails print.inside

variable {rule level : Rule} {rest : List Token} {print left right next : Print}

section Joints

private theorem joins_of_fits (hrule : rule ∈ Rule.joints) (h : Fits rule.tighter print) :
    Joins rule print := by
  intro words trees rest hstop hloop
  apply Turns.call
  rw [Rule.grammar_joint hrule]
  exact Turns.cond_yes (h.takes _ hstop) (Turns.seq_answer hloop)

private theorem tighter_joint : ∀ rule ∈ Rule.joints, rule ∈ Rule.levels ∧
    rule.tighter ∈ Rule.levels ∧ rule.tighter.rank + 1 = rule.rank := by
  decide

private theorem fits_of_joins (hrule : rule ∈ Rule.joints)
    (htree : ∃ tree, print.trees = [tree] ∧ tree.nodeKind? ≠ some .forClause)
    (hopens : Opens rule print.words) (hsound : Sound print.words) (h : Joins rule print) :
    Fits rule print := by
  refine ⟨htree, hopens, ?_, hsound⟩
  intro rest hrest
  have hrank := (tighter_joint rule hrule).2.2
  have hnone : Takes (.loop rule.round) true .empty rest :=
    Turns.loop_no (Rule.round_none hrule hrest)
  have hloop := Turns.frame hnone print.trees
  rw [List.append_nil] at hloop
  have hall := h [] _ rest (hrest.mono (by omega)) hloop
  rw [List.append_nil, Print.empty, List.append_nil] at hall
  exact hall

private theorem Operator.rule_joint (operator : Operator) : operator.rule ∈ Rule.joints := by
  cases operator <;> decide

private theorem stops_operator (operator : Operator) (more : List Token) :
    Stops operator.rule.tighter (operator.tokens ++ more) := by
  have hne : operator.tokens ≠ [] := by cases operator <;> exact List.cons_ne_nil _ _
  have hrank : operator.rule.tighter.rank < (Token.nextKind operator.tokens).binding := by
    cases operator <;> decide
  exact Stops.of_next _ (Token.nextKind_append hne more) hrank

private theorem sound_operator (operator : Operator) (hright : Sound right.words) :
    Sound (Print.leaves operator.tokens ++ right).words := by
  cases operator with
  | notIn => exact Sound.word _ (Sound.word _ hright)
  | isNot => exact Sound.word _ (Sound.word _ hright)
  | orWord | andWord | inWord | isWord => exact Sound.word _ hright
  | _ => exact Sound.mark rfl rfl hright

private theorem round_comparison {kind : TokenKind} {symbols : Print} {answer : Bool}
    (hleft : ∃ tree, left.trees = [tree]) (hright : Takes (.call .bitOr) true right rest)
    (hkind : Token.nextKind (symbols.words ++ right.words ++ rest) = kind)
    (hcompares : comparisonOperators.contains kind = true)
    (hsymbols : Takes (.cond (eat (.keyword .isWord)) (eat (.keyword .notWord)) .advance) answer
      symbols (right.words ++ rest)) :
    Turns (Rule.round .comparison) true left.trees (symbols ++ right).words
      ((left ++ (symbols ++ right)).node .binary).trees rest := by
  have hbody := Takes.seq hsymbols hright
  refine Turns.pair_no ?_ (Turns.at_yes ?_ (Takes.wrap hleft hbody))
  · intro hnot
    rw [Print.words_append, hkind] at hnot
    obtain rfl : kind = .keyword .notWord := by simpa using hnot
    cases hcompares
  · rw [Print.words_append, hkind]
    exact hcompares

private theorem round_operator (operator : Operator) (hleft : ∃ tree, left.trees = [tree])
    (hright : Fits operator.rule.tighter right) (hrest : Stops operator.rule.tighter rest) :
    Turns operator.rule.round true left.trees (Print.leaves operator.tokens ++ right).words
      ((left ++ (Print.leaves operator.tokens ++ right)).node .binary).trees rest := by
  have htakes := hright.takes rest hrest
  have hjoint {kinds : List TokenKind} {token : Token} (hkinds : kinds.contains token.kind = true)
      (hend : token.kind ≠ .endOfInput) :
      Turns (Rule.joint kinds (.call operator.rule.tighter)) true left.trees (token :: right.words)
        ((left ++ (.leaf token ++ right)).node .binary).trees rest :=
    Turns.at_yes hkinds
      (Turns.seq_answer (Takes.wrap hleft (Takes.seq (Takes.advance hend) htakes)))
  have hsymbol {token : Token} (his : token.kind ≠ .keyword .isWord) (hend : token.kind ≠ .endOfInput) :
      Takes (.cond (eat (.keyword .isWord)) (eat (.keyword .notWord)) .advance) true (.leaf token)
        (right.words ++ rest) := Turns.eat_no his (Takes.advance hend)
  cases operator with
  | orWord | andWord => exact hjoint rfl nofun
  | bar | caret | ampersand | shiftLeft | shiftRight | plus | minus => exact hjoint rfl nofun
  | star | slash | doubleSlash | percent | «at» => exact hjoint rfl nofun
  | less | greater | equality | inequality | lessEqual | greaterEqual | inWord =>
    exact round_comparison hleft htakes rfl rfl (hsymbol nofun nofun)
  | isWord =>
    have hnot : [TokenKind.keyword .notWord].contains (Token.nextKind (right.words ++ rest)) =
        false := hright.opens.not_at (by decide) rest
    have hword : Takes (.cond (eat (.keyword .isWord)) (eat (.keyword .notWord)) .advance) false
        (.word .isWord ++ .empty) (right.words ++ rest) :=
      Takes.eat_yes rfl (takes_eat_none (by simpa using hnot))
    exact round_comparison hleft htakes rfl rfl hword
  | isNot =>
    have hwords : Takes (.cond (eat (.keyword .isWord)) (eat (.keyword .notWord)) .advance) true
        (.word .isWord ++ .word .notWord) (right.words ++ rest) :=
      Takes.eat_yes rfl (takes_eat rfl)
    exact round_comparison hleft htakes rfl rfl hwords
  | notIn =>
    have hwords : Takes (steps [.bump (.keyword .notWord), .bump (.keyword .inWord), .call .bitOr])
        true (.word .notWord ++ (.word .inWord ++ right)) rest :=
      Takes.seq (Takes.bump rfl) (Takes.seq (Takes.bump rfl) htakes)
    exact Turns.pair_yes rfl rfl (Takes.wrap hleft hwords)

private theorem joins_operator (operator : Operator) (htree : ∃ tree, left.trees = [tree])
    (hleft : Joins operator.rule left) (hright : Fits operator.rule.tighter right) :
    Joins operator.rule ((left ++ (.leaves operator.tokens ++ right)).node .binary) := by
  intro words trees rest hstop hloop
  have hround := round_operator operator htree hright hstop
  have hnonempty : (Print.leaves operator.tokens ++ right).words ≠ [] := by
    cases operator <;> exact List.cons_ne_nil _ _
  have hall := Turns.loop_yes hround hnonempty hloop
  have hwords : ((left ++ (Print.leaves operator.tokens ++ right)).node .binary).words ++ words =
      left.words ++ ((Print.leaves operator.tokens ++ right).words ++ words) :=
    List.append_assoc ..
  rw [hwords]
  refine hleft _ trees rest ?_ hall
  rw [Print.words_append, List.append_assoc, List.append_assoc]
  exact stops_operator operator _

end Joints

namespace Printed

private theorem joins_guard (h : Printed rule print) (hlevel : level ∈ Rule.joints) :
    Joins level (print.guard level rule) := by
  obtain ⟨hmem, htighter, hrank⟩ := tighter_joint level hlevel
  rw [Print.guard]
  split
  · have hatom := fits_parenthesized h.toFits h.level
    exact joins_of_fits hlevel
      (hatom.at_level (by decide) htighter (Rule.one_le_rank _ htighter))
  · rename_i hloose
    by_cases heq : rule.rank = level.rank
    · obtain rfl := Rule.level_eq_of_rank rule h.level level hmem heq
      exact h.joins hlevel
    · exact joins_of_fits hlevel (h.toFits.at_level h.level htighter (by omega))

theorem guard (h : Printed rule print) (hlevel : level ∈ Rule.levels) :
    Fits level (print.guard level rule) := h.toFits.guard h.level hlevel

theorem binary {leftRule rightRule : Rule} (operator : Operator) (hleft : Printed leftRule left)
    (hright : Printed rightRule right) :
    Printed operator.rule ((left.guard operator.rule leftRule ++ (.leaves operator.tokens ++
      right.guard operator.rule.tighter rightRule)).node .binary) := by
  have hjoint := operator.rule_joint
  obtain ⟨hlevel, htighter, _⟩ := tighter_joint _ hjoint
  have hfirst := hleft.guard hlevel
  have hsecond := hright.guard htighter
  obtain ⟨tree, htree, _⟩ := hfirst.tree
  have hjoins := joins_operator operator ⟨tree, htree⟩ (hleft.joins_guard hjoint) hsecond
  have hopens : Opens operator.rule (left.guard operator.rule leftRule ++ (.leaves operator.tokens ++
      right.guard operator.rule.tighter rightRule)).words :=
    hfirst.opens.append (by cases operator <;> exact nofun)
  have hsound := hfirst.sound.append (sound_operator operator hsecond.sound)
  refine ⟨fits_of_joins hjoint ⟨_, rfl, nofun⟩ hopens hsound hjoins, hlevel, fun _ => hjoins, ?_⟩
  intro hchain
  cases operator <;> cases hchain

end Printed

/-- Levels without operators that group from the left. -/
theorem Fits.printed (h : Fits rule print) (hlevel : rule ∈ Rule.levels)
    (hjoint : rule ∉ Rule.joints) (hchain : rule ≠ .chain) : Printed rule print :=
  ⟨h, hlevel, fun hmem => absurd hmem hjoint, fun heq => absurd heq hchain⟩

theorem Printed.atom (h : Fits .atom print) : Printed .atom print :=
  h.printed (by decide) (by decide) nofun

section Prefixes

variable {operand base exponent value condition other : Print}

theorem fits_sign (sign : Sign) (h : Fits .factor operand) :
    Fits .factor ((Print.mark sign.symbol ++ operand).node .unary) := by
  have hfirst : Rule.factor.first.contains (.symbol sign.symbol) = true := by
    cases sign <;> rfl
  have hsigns : signs.contains (.symbol sign.symbol) = true := by
    cases sign <;> rfl
  have hname : TokenKind.symbol sign.symbol ≠ .name := nofun
  have hsound : Sound (Print.mark sign.symbol ++ operand).words := by
    cases sign <;> exact Sound.mark rfl rfl h.sound
  refine ⟨⟨_, rfl, nofun⟩, Opens.of_token hfirst hname _, ?_, hsound⟩
  intro rest hrest
  have hsign : Takes .advance true (.mark sign.symbol) (operand.words ++ rest) :=
    Takes.advance nofun
  exact Turns.call (Turns.at_yes hsigns (Takes.node (Takes.seq hsign (h.takes rest hrest))))

theorem fits_negation (h : Fits .negation operand) :
    Fits .negation ((Print.word .notWord ++ operand).node .unary) := by
  have hname : (Token.word .notWord).kind ≠ .name := nofun
  refine ⟨⟨_, rfl, nofun⟩, Opens.of_token rfl hname _, ?_, Sound.word .notWord h.sound⟩
  intro rest hrest
  have hbody := Takes.seq (takes_word .notWord _) (h.takes rest hrest)
  exact Turns.call (Turns.at_yes rfl (Takes.node hbody))

/-- The exponent may have a sign; the base may not. -/
theorem fits_power (hbase : Fits .chain base) (hexponent : Fits .factor exponent) :
    Fits .power ((base ++ (.mark .doubleStar ++ exponent)).node .binary) := by
  have hopens : Opens .chain (base ++ (Print.mark .doubleStar ++ exponent)).words :=
    hbase.opens.append nofun
  have hsound : Sound (Print.mark .doubleStar ++ exponent).words :=
    Sound.mark rfl rfl hexponent.sound
  obtain ⟨tree, htree, _⟩ := hbase.tree
  refine ⟨⟨_, rfl, nofun⟩, hopens.mono (by decide), ?_, hbase.sound.append hsound⟩
  intro rest hrest
  have hpower := Takes.seq (takes_mark .doubleStar _) (hexponent.takes rest hrest.factor_of_power)
  have hstop : Stops .chain (Token.mark .doubleStar :: (exponent.words ++ rest)) :=
    Stops.of_next (.symbol .doubleStar) rfl (by decide)
  exact Turns.call (Turns.cond_yes (hbase.takes _ hstop)
    (Turns.at_yes rfl (Takes.wrap ⟨tree, htree⟩ hpower)))

theorem fits_conditional (hvalue : Fits .disjunction value)
    (hcondition : Fits .disjunction condition) (hother : Fits .expression other) :
    Fits .expression ((value ++ (.word .ifWord ++ (condition ++
      (.word .elseWord ++ other)))).node .conditional) := by
  have hopens : Opens .disjunction (value ++ (.word .ifWord ++ (condition ++
      (.word .elseWord ++ other)))).words := hvalue.opens.append nofun
  have hsound := hvalue.sound.append
    (Sound.word .ifWord (hcondition.sound.append (Sound.word .elseWord hother.sound)))
  obtain ⟨tree, htree, _⟩ := hvalue.tree
  refine ⟨⟨_, rfl, nofun⟩, hopens.mono (by decide), ?_, hsound⟩
  intro rest hrest
  have hif : Stops .disjunction
      (Token.word .ifWord :: (condition.words ++ Token.word .elseWord :: other.words) ++ rest) :=
    Stops.of_next (.keyword .ifWord) rfl (by decide)
  have helse : Stops .disjunction (Token.word .elseWord :: (other.words ++ rest)) :=
    Stops.of_next (.keyword .elseWord) rfl (by decide)
  have htail : Takes (.cond (expect (.keyword .elseWord)) (.call .expression) (.answer false)) true
      (.word .elseWord ++ other) rest :=
    Takes.cond_yes (takes_expect rfl) (hother.takes rest hrest)
  have hrest := Takes.seq (takes_word .ifWord _) (Takes.seq (hcondition.takes _ helse) htail)
  refine Turns.call (Turns.at_no (hopens.not_at (by decide) rest) ?_)
  exact Turns.cond_yes (hvalue.takes _ hif) (Turns.at_yes rfl (Takes.wrap ⟨tree, htree⟩ hrest))

end Prefixes

end Syntax

end QuantumScript
