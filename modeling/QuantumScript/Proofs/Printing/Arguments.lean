import QuantumScript.Proofs.Printing.Operators
/-!
# Parameters, arguments and chains

Parameters of lambdas, arguments of calls and indices of subscripts are read one by one. The calls,
subscripts and attributes after an atom become parts of one chain.
-/

namespace QuantumScript

namespace Syntax

open Production

variable {rule : Rule} {rest : List Token} {print value body clauses first : Print}
  {prints : List Print}

/-- Stars are read where none are read without them. -/
theorem takes_stars (stars : Stars) (h : Takes Production.stars false .empty rest) :
    ∃ answer, Takes Production.stars answer (.leaves stars.tokens) rest := by
  cases stars with
  | none => exact ⟨false, h⟩
  | one =>
    have htake : Takes Production.stars true (.mark .star ++ .empty) rest :=
      Takes.eat_yes rfl (Takes.answered true)
    exact ⟨true, htake⟩
  | two =>
    have htake : Takes (eat (.symbol .doubleStar)) true (.mark .doubleStar) rest := takes_eat rfl
    exact ⟨true, Turns.eat_no nofun htake⟩

theorem sound_stars (stars : Stars) {words : List Token} (h : Sound words) :
    Sound (stars.tokens ++ words) := by
  cases stars with
  | none => exact h
  | one => exact Sound.mark rfl rfl h
  | two => exact Sound.mark rfl rfl h

section Parameters

/-- The script of a parameter of a lambda. -/
def lambdaParameter : Production :=
  .node (.always .parameter) <| steps [stars, name, defaultValue]

theorem starts_parameter (stars : Stars) (name : Name) (more : List Token) :
    parameterFirst.contains (Token.nextKind (stars.tokens ++ name.token :: more)) = true := by
  cases stars with
  | none =>
    change parameterFirst.contains name.token.kind = true
    rw [name.kind_name]
    rfl
  | one => rfl
  | two => rfl

theorem takes_unstarred (name : Name) (rest : List Token) :
    Takes Production.stars false .empty (name.token :: rest) := by
  have hone : name.token.kind ≠ .symbol .star := name.of_kinds (p := (· ≠ .symbol .star)) (by decide)
  have htwo : name.token.kind ≠ .symbol .doubleStar :=
    name.of_kinds (p := (· ≠ .symbol .doubleStar)) (by decide)
  exact Turns.eat_no hone (takes_eat_none htwo)

theorem listed_parameter (stars : Stars) (name : Name) :
    Listed lambdaParameter parameterFirst [.symbol .comma, .symbol .colon]
      ((Print.leaves stars.tokens ++ Print.name name).node .parameter) := by
  refine ⟨starts_parameter stars name [], ?_, sound_stars stars (fits_name name).sound⟩
  intro rest hrest
  obtain ⟨answer, hstars⟩ := takes_stars stars (takes_unstarred name rest)
  have hnone : Takes defaultValue false .empty rest :=
    takes_whenAt_none (not_at_of_ends hrest (by decide))
  exact Takes.node (Takes.seq hstars (Takes.seq_still (takes_nameOr name.kind_name []) hnone))

theorem listed_defaulted (name : Name) (h : Fits .expression value) :
    Listed lambdaParameter parameterFirst [.symbol .comma, .symbol .colon]
      ((Print.name name ++ (.mark .equals ++ value).node .defaultValue).node .parameter) := by
  have hsound : Sound (Print.mark .equals ++ value).words := Sound.mark rfl rfl h.sound
  refine ⟨starts_parameter .none name _, ?_, (fits_name name).sound.append hsound⟩
  intro rest hrest
  have hvalue := h.takes rest (stops_of_ends hrest (by decide))
  have hdefault : Takes defaultValue true ((.mark .equals ++ value).node .defaultValue) rest :=
    Turns.at_yes rfl (Takes.node (Takes.seq (takes_mark .equals _) hvalue))
  have hstars := takes_unstarred name (Token.mark .equals :: (value.words ++ rest))
  exact Takes.node (Takes.skip hstars (Takes.seq (takes_nameOr name.kind_name []) hdefault))

def parameterRound : Production :=
  whenAt parameterFirst (.seq lambdaParameter (eat (.symbol .comma)))

private theorem takes_lambdaParameters (h : ∀ print ∈ prints,
      Listed lambdaParameter parameterFirst [.symbol .comma, .symbol .colon] print)
    (hrest : Token.nextKind rest = .symbol .colon) :
    Takes (.loop parameterRound) true (Print.items prints) rest := by
  refine takes_separated ?_ ?_ ?_
  · intro _
    exact takes_whenAt_none (by rw [hrest]; rfl)
  · intro print hmem
    have hitem := (h print hmem).takes rest (by rw [hrest]; rfl)
    have hnone : Takes (eat (.symbol .comma)) false .empty rest :=
      takes_eat_none (by rw [hrest]; exact nofun)
    exact Turns.at_yes ((h print hmem).starts_append (by decide) rest) (Takes.seq_still hitem hnone)
  · intro print hmem next _ more
    have hitem := (h print hmem).takes (Token.mark .comma :: (next.words ++ more)) (by rfl)
    have hstarts := (h print hmem).starts_append (by decide)
      (Token.mark .comma :: (next.words ++ more))
    refine Turns.at_yes ?_ (Takes.seq hitem (takes_eat rfl))
    rw [Print.words_append, List.append_assoc]
    exact hstarts

theorem fits_lambda (h : ∀ print ∈ prints,
      Listed lambdaParameter parameterFirst [.symbol .comma, .symbol .colon] print)
    (hbody : Fits .expression body) :
    Fits .expression ((Print.word .lambdaWord ++ ((Print.items prints).node .parameters ++
      (.mark .colon ++ body))).node .lambda) := by
  have hname : (Token.word .lambdaWord).kind ≠ .name := nofun
  have hitems := Print.sound_items fun print hmem => (h print hmem).sound
  have hcolon : Sound (Token.mark .colon :: body.words) := Sound.mark rfl rfl hbody.sound
  refine ⟨⟨_, rfl, nofun⟩, Opens.of_token rfl hname _, ?_,
    Sound.word .lambdaWord (hitems.append hcolon)⟩
  intro rest hrest
  have hparameters : Takes (.node (.always .parameters) (.loop parameterRound)) true
      ((Print.items prints).node .parameters) (Token.mark .colon :: (body.words ++ rest)) :=
    Takes.node (takes_lambdaParameters h rfl)
  have htail := Takes.seq (takes_expect_mark .colon _) (hbody.takes rest hrest)
  have hlambda := Takes.seq (takes_word .lambdaWord _) (Takes.seq hparameters htail)
  exact Turns.call (Turns.at_yes rfl (Turns.call (Turns.demand rfl (Takes.node hlambda))))

end Parameters

section Arguments

/-- The script of an item between the parentheses of a call. -/
def callArgument : Production := whenAt argumentFirst (.seq (.call .argument) (.answer true))

private def argumentName : Production :=
  .cond (.ask (.atPair [.name] (.symbol .equals))) (.seq name (.bump (.symbol .equals)))
    (.answer false)

private def argumentValue : Production :=
  .cond (.call .expression) (whenAt [.keyword .forWord] (.wrap .comprehension (.call .clauses)))
    (.answer false)

private theorem takes_value (h : Fits .expression value)
    (hrest : [TokenKind.symbol .comma, .symbol .rightParen].contains (Token.nextKind rest) = true) :
    Takes argumentValue false value rest :=
  Takes.cond_still (h.takes rest (stops_of_ends hrest (by decide)))
    (takes_whenAt_none (not_at_of_ends hrest (by decide)))

private theorem takes_unnamed (h : Opens .expression value.words)
    (hrest : Token.nextKind rest ≠ .symbol .equals) :
    Takes argumentName false .empty (value.words ++ rest) := by
  refine Turns.pair_no ?_ (Takes.answered false)
  intro hname
  exact (h.append hrest).unlabelled (by simpa using hname)

private theorem listed_argument {print : Print}
    (hstarts : argumentFirst.contains (Token.nextKind print.words) = true) (hsound : Sound print.words)
    (h : ∀ rest, [TokenKind.symbol .comma, .symbol .rightParen].contains (Token.nextKind rest) = true →
      Takes (.call .argument) true print rest) :
    Listed callArgument argumentFirst [.symbol .comma, .symbol .rightParen] print := by
  refine ⟨hstarts, ?_, hsound⟩
  intro rest hrest
  refine Turns.at_yes ?_ (Takes.seq_answer (h rest hrest))
  rw [Token.nextKind_append]
  · exact hstarts
  · intro hnil
    rw [hnil] at hstarts
    cases hstarts

private theorem starts_value (h : Opens .expression value.words) :
    argumentFirst.contains (Token.nextKind value.words) = true := by
  have hstarts : argumentFirst.contains (Token.nextKind (value.words ++ [])) = true :=
    h.starts (by decide) []
  rwa [List.append_nil] at hstarts

private theorem takes_no_stars (h : Opens .expression value.words) (more : List Token) :
    Takes Production.stars false .empty (value.words ++ more) := by
  have hone : [TokenKind.symbol .star].contains (Token.nextKind (value.words ++ more)) = false :=
    h.not_at (by decide) more
  have htwo : [TokenKind.symbol .doubleStar].contains (Token.nextKind (value.words ++ more)) =
      false := h.not_at (by decide) more
  exact Turns.eat_no (by simpa using hone) (takes_eat_none (by simpa using htwo))

theorem listed_value (stars : Stars) (h : Fits .expression value) :
    Listed callArgument argumentFirst [.symbol .comma, .symbol .rightParen]
      ((Print.leaves stars.tokens ++ value).node .argument) := by
  refine listed_argument ?_ (sound_stars stars h.sound) ?_
  · cases stars with
    | none => exact starts_value h.opens
    | one => rfl
    | two => rfl
  · intro rest hrest
    have hequals : Token.nextKind rest ≠ .symbol .equals := by
      intro heq
      rw [heq] at hrest
      cases hrest
    obtain ⟨answer, hstars⟩ := takes_stars stars (takes_no_stars h.opens rest)
    exact Turns.call (Takes.node
      (Takes.seq hstars (Takes.skip (takes_unnamed h.opens hequals) (takes_value h hrest))))

theorem listed_keyword (name : Name) (h : Fits .expression value) :
    Listed callArgument argumentFirst [.symbol .comma, .symbol .rightParen]
      ((Print.name name ++ (.mark .equals ++ value)).node .argument) := by
  have hkind := name.kind_name
  have hsound : Sound (Print.mark .equals ++ value).words := Sound.mark rfl rfl h.sound
  have hfirst : argumentFirst.contains name.token.kind = true := name.starts (by decide)
  refine listed_argument hfirst ((fits_name name).sound.append hsound) ?_
  intro rest hrest
  have hstars := takes_unstarred name (Token.mark .equals :: (value.words ++ rest))
  have hname : Takes argumentName true (Print.name name ++ .mark .equals) (value.words ++ rest) := by
    refine Turns.pair_yes ?_ rfl (Takes.seq (takes_nameOr hkind []) (takes_mark .equals _))
    simpa [Print.name, Print.node, Print.leaf, Token.nextKind] using hkind
  have hargument := Takes.seq hname (takes_value h hrest)
  rw [Print.append_assoc] at hargument
  exact Turns.call (Takes.node (Takes.skip hstars hargument))

/-- A generator without parentheses of its own. -/
theorem listed_generated (h : Fits .expression value) (hclauses : Comprehension clauses) :
    Listed callArgument argumentFirst [.symbol .comma, .symbol .rightParen]
      (((value ++ clauses).node .comprehension).node .argument) := by
  obtain ⟨tree, htree, _⟩ := h.tree
  have hopens : Opens .expression (value ++ clauses).words := by
    refine h.opens.append ?_
    rw [← List.append_nil clauses.words, hclauses.begins]
    exact nofun
  refine listed_argument (starts_value hopens) (h.sound.append hclauses.sound) ?_
  intro rest hrest
  have hfor := hclauses.begins rest
  have hstop : ClausesStop rest := by
    refine ⟨stops_of_ends hrest (by decide), ?_⟩
    intro heq
    rw [heq] at hrest
    cases hrest
  have hequals : Token.nextKind rest ≠ .symbol .equals := by
    intro heq
    rw [heq] at hrest
    cases hrest
  have hitem := h.takes (clauses.words ++ rest) (Stops.of_next _ hfor (by decide))
  have hvalue : Takes argumentValue true ((value ++ clauses).node .comprehension) rest := by
    refine Turns.cond_yes hitem (Turns.at_yes ?_ (Takes.wrap ⟨tree, htree⟩ (hclauses.takes rest hstop)))
    rw [hfor]
    rfl
  exact Turns.call (Takes.node (Takes.skip (takes_no_stars hopens rest)
    (Takes.skip (takes_unnamed hopens hequals) hvalue)))

end Arguments

section Subscripts

variable {lower upper step : Print}

/-- A bound of a slice, which may be missing. -/
def IsBound (print : Print) : Prop := print = .empty ∨ Fits .expression print

/-- The script of an item between the brackets of a subscript. -/
def subscriptItem : Production :=
  .cond (.ask (.at subscriptFirst)) (.seq (.call .subscript) (.answer true)) (.report .missingIndex)

private def bound : Production := whenAt expressionFirst (.call .expression)

private def indexEnds : List TokenKind := [.symbol .comma, .symbol .rightBracket]

private theorem IsBound.sound (h : IsBound lower) : Sound lower.words := by
  rcases h with rfl | h
  · exact Sound.nil
  · exact h.sound

private theorem IsBound.takes (h : IsBound lower) (hrest : Stops .expression rest)
    (hnone : expressionFirst.contains (Token.nextKind rest) = false) :
    ∃ answer, Takes bound answer lower rest := by
  rcases h with rfl | h
  · exact ⟨false, takes_whenAt_none hnone⟩
  · exact ⟨true, Turns.at_yes (h.opens.starts (by decide) rest) (h.takes rest hrest)⟩

private theorem IsBound.takes_lower (h : IsBound lower) (more : List Token) :
    ∃ answer, Takes (.cond (next (.symbol .colon)) (.answer false) (.call .expression)) answer lower
      (Token.mark .colon :: more) := by
  rcases h with rfl | h
  · exact ⟨false, Turns.at_yes rfl (Takes.answered false)⟩
  · have hcolon : [TokenKind.symbol .colon].contains
        (Token.nextKind (lower.words ++ Token.mark .colon :: more)) = false :=
      h.opens.not_at (by decide) _
    exact ⟨true, Turns.at_no hcolon (h.takes _ (Stops.of_next (.symbol .colon) rfl (by decide)))⟩

private theorem IsBound.starts (h : IsBound lower) (more : List Token) :
    subscriptFirst.contains (Token.nextKind (lower.words ++ Token.mark .colon :: more)) = true := by
  rcases h with rfl | h
  · rfl
  · exact h.opens.starts (by decide) _

private theorem listed_subscript
    (hstarts : subscriptFirst.contains (Token.nextKind print.words) = true) (hsound : Sound print.words)
    (h : ∀ rest, indexEnds.contains (Token.nextKind rest) = true →
      Takes (.call .subscript) true print rest) :
    Listed subscriptItem subscriptFirst indexEnds print := by
  refine ⟨hstarts, ?_, hsound⟩
  intro rest hrest
  refine Turns.at_yes ?_ (Takes.seq_answer (h rest hrest))
  rw [Token.nextKind_append]
  · exact hstarts
  · intro hnil
    rw [hnil] at hstarts
    cases hstarts

theorem listed_index (h : Fits .expression value) :
    Listed subscriptItem subscriptFirst [.symbol .comma, .symbol .rightBracket]
      (value.node .subscript) := by
  refine listed_subscript ?_ h.sound ?_
  · have hstarts : subscriptFirst.contains (Token.nextKind (value.words ++ [])) = true :=
      h.opens.starts (by decide) []
    rwa [List.append_nil] at hstarts
  · intro rest hrest
    have hcolon : [TokenKind.symbol .colon].contains (Token.nextKind (value.words ++ rest)) = false :=
      h.opens.not_at (by decide) rest
    have hnone : [TokenKind.symbol .colon].contains (Token.nextKind rest) = false :=
      not_at_of_ends hrest (by decide)
    have hvalue := h.takes rest (stops_of_ends hrest (by decide))
    have hend : Takes (.cond (eat (.symbol .colon)) (.seq bound (.cond (eat (.symbol .colon)) bound
        (.answer false))) (.answer false)) false .empty rest :=
      Turns.eat_no (by simpa using hnone) (Takes.answered false)
    exact Turns.call (Takes.node (Takes.seq_still (Turns.at_no hcolon hvalue) hend))

theorem listed_slice (hlower : IsBound lower) (hupper : IsBound upper) :
    Listed subscriptItem subscriptFirst [.symbol .comma, .symbol .rightBracket]
      ((lower ++ (.mark .colon ++ upper)).node .subscript) := by
  have hsound : Sound (Print.mark .colon ++ upper).words := Sound.mark rfl rfl hupper.sound
  refine listed_subscript (hlower.starts upper.words) (hlower.sound.append hsound) ?_
  intro rest hrest
  have hnone : [TokenKind.symbol .colon].contains (Token.nextKind rest) = false :=
    not_at_of_ends hrest (by decide)
  obtain ⟨_, hfirst⟩ := hlower.takes_lower (upper.words ++ rest)
  obtain ⟨_, hsecond⟩ := hupper.takes (stops_of_ends hrest (by decide)) (not_at_of_ends hrest (by decide))
  have hend : Takes (.cond (eat (.symbol .colon)) bound (.answer false)) false .empty rest :=
    Turns.eat_no (by simpa using hnone) (Takes.answered false)
  exact Turns.call (Takes.node
    (Takes.seq hfirst (Takes.eat_yes rfl (Takes.seq_still hsecond hend))))

theorem listed_stride (hlower : IsBound lower) (hupper : IsBound upper) (hstep : IsBound step) :
    Listed subscriptItem subscriptFirst [.symbol .comma, .symbol .rightBracket]
      ((lower ++ (.mark .colon ++ (upper ++ (.mark .colon ++ step)))).node .subscript) := by
  have hsound : Sound (Print.mark .colon ++ step).words := Sound.mark rfl rfl hstep.sound
  have hsounds : Sound (Print.mark .colon ++ (upper ++ (.mark .colon ++ step))).words :=
    Sound.mark rfl rfl (hupper.sound.append hsound)
  refine listed_subscript (hlower.starts _) (hlower.sound.append hsounds) ?_
  intro rest hrest
  have hcolon : Stops .expression (Token.mark .colon :: (step.words ++ rest)) :=
    Stops.of_next (.symbol .colon) rfl (by decide)
  obtain ⟨_, hfirst⟩ := hlower.takes_lower (upper.words ++ (Token.mark .colon :: step.words) ++ rest)
  obtain ⟨_, hsecond⟩ := hupper.takes hcolon rfl
  obtain ⟨_, hthird⟩ := hstep.takes (stops_of_ends hrest (by decide)) (not_at_of_ends hrest (by decide))
  exact Turns.call (Takes.node (Takes.seq hfirst
    (Takes.eat_yes rfl (Takes.seq hsecond (Takes.eat_yes rfl hthird)))))

end Subscripts

end Syntax

end QuantumScript
