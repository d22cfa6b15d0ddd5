import QuantumScript.Proofs.Parsing.Truth
/-!
# Contracts of the grammar

Every rule promises how it can end, given the kind of the next token. The forecast of each production
keeps the promises of its rule, so that no parse takes a step that a sound grammar never takes. Rules
are ranked: a call that comes before a token has been taken is one of a rule of lower rank, so that
calls are never nested deeper than the tokens allow.
-/

namespace QuantumScript

namespace Syntax

namespace Rule

open Production

/-- Tokens that start an operand of an arithmetic operator. -/
def operandFirst : List TokenKind := atomFirst.append signs

/-- Tokens that start an operand of `or`, `and` or `not`. -/
def testFirst : List TokenKind := operandFirst.append [.keyword .notWord]

/-- Tokens at which an expression of the rule is read without an error. -/
def first : Rule → List TokenKind
  | .atom | .chain | .power => atomFirst
  | .factor | .product | .sum | .shift | .bitAnd | .bitXor | .bitOr | .comparison | .targetList =>
    operandFirst
  | .negation | .conjunction | .disjunction => testFirst
  | _ => expressionFirst

/-- Before it takes a token, a rule calls rules of lower rank only. -/
def rank : Rule → Nat
  | .atom => 1
  | .chain => 2
  | .power => 3
  | .factor => 4
  | .product => 5
  | .sum => 6
  | .shift => 7
  | .bitAnd => 8
  | .bitXor => 9
  | .bitOr => 10
  | .comparison => 11
  | .negation => 12
  | .conjunction => 13
  | .disjunction => 14
  | .expression => 15
  | .expressionList | .targetList | .argument | .subscript => 16
  | .simpleStatement => 17
  | .simpleLine => 18
  | .statement | .suite => 19
  | _ => 0

theorem rank_lt (rule : Rule) : rule.rank < callDepth := by
  cases rule <;> decide

/-- A node has been completed, with a token in it. -/
def done : Outcome := (true, ⟨.except [], none, true, true⟩)

/-- Tokens have been taken. -/
def took (answer : Bool) : Outcome := (answer, ⟨.except [], none, true, false⟩)

/-- No token has been taken. -/
def stayed (answer : Bool) : Outcome := (answer, ⟨.except [], none, false, false⟩)

/-- The end of a simple statement is reached. -/
def ended (moved : Bool) : Outcome := (true, ⟨.among Parse.statementEnds, none, moved, true⟩)

/-- What the rules promise. A rule without a promise for the next token must not be called there. -/
def promises : Rule → List Promise
  | .lambda => [(.among [.keyword .lambdaWord], [done])]
  | .yield => [(.among [.keyword .yieldWord], [done])]
  | .parenthesized | .arguments | .parameters => [(.among [.symbol .leftParen], [done])]
  | .list | .subscripts => [(.among [.symbol .leftBracket], [done])]
  | .dictionary => [(.among [.symbol .leftBrace], [done])]
  | .clauses | .elseClause => [(.except [], [took true, stayed false])]
  | .argument => [(.among argumentFirst, [done])]
  | .subscript => [(.among subscriptFirst, [done])]
  | .attribute => [(.among [.symbol .dot], [done])]
  | .parameter => [(.among parameterFirst, [done])]
  | .statement => [(.except [.newline, .endOfInput, .dedent], [took true, took false])]
  | .simpleLine => [(.except [.newline, .endOfInput], [took true, took false])]
  | .simpleStatement => [(.except [], [ended true, ended false])]
  | .function => [(.among [.keyword .defWord], [done])]
  | .classDefinition => [(.among [.keyword .classWord], [done])]
  | .decorated => [(.among [.symbol .at], [done])]
  | .ifStatement => [(.among [.keyword .ifWord], [done])]
  | .whileStatement => [(.among [.keyword .whileWord], [done])]
  | .forStatement => [(.among [.keyword .forWord], [done])]
  | .withStatement => [(.among [.keyword .withWord], [done])]
  | .tryStatement => [(.among [.keyword .tryWord], [done])]
  | .suite => [(.except [], [took true, stayed true])]
  | rule => [(.among rule.first, [done]), (.except [], [done, took false, stayed false])]

end Rule

namespace Facts

/-- What is known before any token has been taken. -/
def start (kinds : Kinds) : Facts := ⟨kinds, none, false, false⟩

/-- Wherever the first facts hold, the second hold too. -/
def implies (facts other : Facts) : Bool :=
  facts.kinds.implies other.kinds && other.second = none && facts.moved = other.moved &&
    (!other.marked || facts.marked)

private theorem Hold.of_implies {facts other : Facts} {base : List Tree} {start : Sketch} {parse : Parse}
    {sketch : Sketch} (himplies : facts.implies other = true)
    (h : facts.Hold base start parse sketch) : other.Hold base start parse sketch := by
  simp only [implies, Bool.and_eq_true, decide_eq_true_eq] at himplies
  obtain ⟨⟨⟨hkinds, hsecond⟩, hmoved⟩, hmarked⟩ := himplies
  refine ⟨Kinds.allows_of_implies hkinds h.kinds, ?_, hmoved ▸ h.moved, ?_⟩
  · intro kind hkind
    rw [hsecond] at hkind
    cases hkind
  · intro hother
    apply h.marked
    simpa [hother] using hmarked

end Facts

namespace Script

/-- The outcomes foretold for a production are all promised. -/
def keeps (rule : Rule) (promise : Promise) : Bool :=
  match (grammar rule).forecast Rule.promises Rule.rank rule.rank false (.start promise.1) with
  | none => false
  | some outcomes => outcomes.all fun outcome =>
    promise.2.any fun promised => outcome.1 = promised.1 && outcome.2.implies promised.2

private theorem keeps_promises (rule : Rule) : ∀ promise ∈ rule.promises, keeps rule promise = true := by
  cases rule <;> decide +kernel

private theorem forecast_of_keeps {rule : Rule} {promise : Promise}
    (h : keeps rule promise = true) :
    ∃ outcomes, (grammar rule).forecast Rule.promises Rule.rank rule.rank false
        (.start promise.1) = some outcomes ∧
      ∀ outcome ∈ outcomes, ∃ promised ∈ promise.2,
        outcome.1 = promised.1 ∧ outcome.2.implies promised.2 = true := by
  unfold keeps at h
  split at h
  · cases h
  · rename_i outcomes hforecast
    refine ⟨outcomes, hforecast, ?_⟩
    intro outcome hmem
    have hany := List.all_eq_true.mp h outcome hmem
    simpa only [List.any_eq_true, Bool.and_eq_true, decide_eq_true_eq] using hany

/-- With enough depth for the tokens ahead, calls end as the rules promise. The induction is on the
depth: a call inside has fewer tokens ahead, or as many and a rule of lower rank. -/
theorem kept (depth : Nat) (rule : Rule) (parse : Parse) (sketch : Sketch)
    (hdepth : callDepth * sketch.rest.length + rule.rank < depth) :
    Kept grammar Rule.promises rule (runRule grammar depth rule) parse sketch := by
  induction depth generalizing rule parse sketch with
  | zero => exact absurd hdepth (Nat.not_lt_zero _)
  | succ depth ih =>
    have hcalls : CallsKept grammar Rule.promises Rule.rank (runRule grammar depth) rule.rank
        sketch.rest.length := by
      intro other later ahead hless
      apply ih
      have hrank := other.rank_lt
      unfold callDepth at hdepth hrank ⊢
      omega
    intro base hsketch promise hmem hallows
    obtain ⟨outcomes, hforecast, hpromised⟩ := forecast_of_keeps (keeps_promises rule promise hmem)
    have hstart : (Facts.start promise.1).Hold base sketch parse sketch := by
      refine ⟨hallows, ?_, rfl, ?_⟩
      · intro kind hkind
        cases hkind
      · intro hmarked
        cases hmarked
    obtain ⟨answer, next, after, facts, hrun, hread, houtcome, hnext, hhold⟩ :=
      truthful hcalls (grammar rule) hforecast hsketch hstart (Nat.le_refl _) (by simp)
    obtain ⟨promised, hmem', hanswer, himplies⟩ := hpromised _ houtcome
    dsimp only at hanswer
    exact ⟨answer, next, after, promised.2, hrun, hread, hanswer ▸ hmem', hnext,
      hhold.of_implies himplies⟩

/-- What is foretold of a file: it is read up to the end of the input. -/
theorem forecast_file : ∃ outcomes,
    Production.file.forecast Rule.promises Rule.rank callDepth false (.start (.except [])) =
        some outcomes ∧
      ∀ outcome ∈ outcomes,
        outcome.1 = true ∧ outcome.2.kinds.implies (.among [.endOfInput]) = true := by
  refine ⟨_, rfl, ?_⟩
  decide

end Script

end Syntax

end QuantumScript
