import QuantumScript.Proofs.Printing.Programs
/-!
# Headers

What stands before the colon of a compound statement: parameters, bases, what is entered and what is
caught.
-/

namespace QuantumScript

namespace Syntax

open Production

variable {rest : List Token} {print : Print}

section Parameters

private theorem takes_hint (hint : Option Expression) (hrest : Stops .expression rest)
    (hcolon : Token.nextKind rest ≠ .symbol .colon) :
    ∃ answer, Takes typeHint answer (.hint hint) rest := by
  cases hint with
  | none => exact ⟨false, takes_whenAt_none (by simpa using hcolon)⟩
  | some value =>
    have hvalue := value.fits_tight.takes rest hrest
    exact ⟨true, Turns.at_yes rfl (Takes.node (Takes.seq (takes_mark .colon _) hvalue))⟩

private theorem takes_default (value : Option Expression) (hrest : Stops .expression rest)
    (hequals : Token.nextKind rest ≠ .symbol .equals) :
    ∃ answer, Takes defaultValue answer (.default value) rest := by
  cases value with
  | none => exact ⟨false, takes_whenAt_none (by simpa using hequals)⟩
  | some value =>
    have hvalue := value.fits_tight.takes rest hrest
    exact ⟨true, Turns.at_yes rfl (Takes.node (Takes.seq (takes_mark .equals _) hvalue))⟩

/-- The script of an item between the parentheses of a function. -/
private def functionParameter : Production :=
  .cond (.ask (.at parameterFirst)) (.seq (.call .parameter) (.answer true))
    (.report .missingParameter)

private theorem nextKind_default (value : Option Expression) (rest : List Token) :
    Token.nextKind ((Print.default value).words ++ rest) = Token.nextKind rest ∨
      Token.nextKind ((Print.default value).words ++ rest) = .symbol .equals := by
  cases value with
  | none => exact Or.inl rfl
  | some value => exact Or.inr rfl

private theorem takes_parameter (parameter : Parameter)
    (hrest : [TokenKind.symbol .comma, .symbol .rightParen].contains (Token.nextKind rest) = true) :
    Takes (.call .parameter) true parameter.print rest := by
  have hafter : Stops .expression ((Print.default parameter.value).words ++ rest) ∧
      Token.nextKind ((Print.default parameter.value).words ++ rest) ≠ .symbol .colon := by
    rcases nextKind_default parameter.value rest with heq | heq
    · rw [Stops, heq]
      refine ⟨stops_of_ends hrest (by decide), ?_⟩
      intro hcolon
      rw [hcolon] at hrest
      cases hrest
    · rw [Stops, heq]
      exact ⟨by decide, by decide⟩
  have hequals : Token.nextKind rest ≠ .symbol .equals := by
    intro heq
    rw [heq] at hrest
    cases hrest
  obtain ⟨_, hstars⟩ := takes_stars parameter.stars (takes_unstarred parameter.name
    ((Print.hint parameter.hint ++ Print.default parameter.value).words ++ rest))
  obtain ⟨_, hhint⟩ := takes_hint parameter.hint hafter.1 hafter.2
  obtain ⟨_, hdefault⟩ := takes_default parameter.value (stops_of_ends hrest (by decide)) hequals
  have hname : Takes (nameOr [.symbol .comma, .symbol .rightParen]) true (.name parameter.name)
      ((Print.hint parameter.hint ++ Print.default parameter.value).words ++ rest) :=
    takes_nameOr parameter.name.kind_name _
  exact Turns.call (Takes.node (Takes.seq hstars (Takes.seq hname (Takes.seq hhint hdefault))))

private theorem sound_hint (hint : Option Expression) : Sound (Print.hint hint).words := by
  cases hint with
  | none => exact Sound.nil
  | some value => exact Sound.mark rfl rfl value.fits_tight.sound

private theorem sound_default (value : Option Expression) : Sound (Print.default value).words := by
  cases value with
  | none => exact Sound.nil
  | some value => exact Sound.mark rfl rfl value.fits_tight.sound

private theorem listed_functionParameter (parameter : Parameter) :
    Listed functionParameter parameterFirst [.symbol .comma, .symbol .rightParen]
      parameter.print := by
  have hstarts (more : List Token) :
      parameterFirst.contains (Token.nextKind (parameter.print.words ++ more)) = true := by
    have hfirst := starts_parameter parameter.stars parameter.name
      ((Print.hint parameter.hint ++ Print.default parameter.value).words ++ more)
    simpa [Parameter.print, Print.node, Print.leaves, Print.name, Print.leaf] using hfirst
  refine ⟨?_, ?_, ?_⟩
  · simpa using hstarts []
  · intro rest hrest
    exact Turns.at_yes (hstarts rest) (Takes.seq_answer (takes_parameter parameter hrest))
  · exact sound_stars parameter.stars ((fits_name parameter.name).sound.append
      ((sound_hint parameter.hint).append (sound_default parameter.value)))

theorem takes_parameters (parameters : List Parameter) (rest : List Token) :
    Takes (.cond (next (.symbol .leftParen)) (.call .parameters) (.report .missingParameters)) true
      (.parameters parameters) rest := by
  have hstart : ∀ kind ∈ [.symbol Bracket.round.closing, .endOfInput], kind ∉ parameterFirst := by
    decide
  have hclosing : parameterFirst.contains (.symbol Bracket.round.closing) = false := rfl
  have hlisted : ∀ print ∈ parameters.map Parameter.print,
      Listed functionParameter parameterFirst [.symbol .comma, .symbol .rightParen] print := by
    intro print hmem
    obtain ⟨parameter, _, rfl⟩ := List.mem_map.mp hmem
    exact listed_functionParameter parameter
  have hitems := takes_bracketed hstart hclosing hlisted rest
  exact Turns.at_yes rfl (Turns.call (Takes.node hitems))

theorem sound_parameters (parameters : List Parameter) : Sound (Print.parameters parameters).words := by
  refine Sound.between (Print.sound_items ?_)
  intro print hmem
  obtain ⟨parameter, _, rfl⟩ := List.mem_map.mp hmem
  exact (listed_functionParameter parameter).sound

end Parameters

/-- The type after an arrow, before the colon of a function. -/
theorem takes_result (value : Option Expression) (more : List Token) :
    ∃ answer, Takes returnType answer (.result value) (Token.mark .colon :: more) := by
  cases value with
  | none => exact ⟨false, takes_whenAt_none rfl⟩
  | some value =>
    have hvalue := value.fits_tight.takes (Token.mark .colon :: more)
      (Stops.of_next (.symbol .colon) rfl (by decide))
    exact ⟨true, Turns.at_yes rfl (Takes.node (Takes.seq (takes_mark .arrow _) hvalue))⟩

theorem sound_result (value : Option Expression) : Sound (Print.result value).words := by
  cases value with
  | none => exact Sound.nil
  | some value => exact Sound.mark rfl rfl value.fits_tight.sound

private theorem listed_arguments (arguments : Phrase (.items .argument)) :
    ∃ prints, arguments.print = Print.items prints ∧ ∀ print ∈ prints,
      Listed callArgument argumentFirst [.symbol .comma, .symbol .rightParen] print := by
  obtain ⟨prints, heq, hprints⟩ := Phrase.proper arguments
  exact ⟨prints, heq, fun print hmem => (hprints print hmem).choose_spec⟩

/-- The bases of a class, before its colon. -/
theorem takes_bases (bases : Option (Phrase (.items .argument))) (more : List Token) :
    ∃ answer, Takes (whenAt [.symbol .leftParen] (.call .arguments)) answer (.bases bases)
      (Token.mark .colon :: more) := by
  cases bases with
  | none => exact ⟨false, takes_whenAt_none rfl⟩
  | some arguments =>
    obtain ⟨prints, heq, hprints⟩ := listed_arguments arguments
    have harguments := takes_arguments hprints (Token.mark .colon :: more)
    rw [← heq] at harguments
    exact ⟨true, Turns.at_yes rfl harguments⟩

theorem sound_bases (bases : Option (Phrase (.items .argument))) :
    Sound (Print.bases bases).words := by
  cases bases with
  | none => exact Sound.nil
  | some arguments =>
    obtain ⟨prints, heq, hprints⟩ := listed_arguments arguments
    have hitems := Print.sound_items fun print hmem => (hprints print hmem).sound
    rw [← heq] at hitems
    exact Sound.between hitems

section Entered

/-- The script of one item of a `with` statement. -/
private def enteredItem : Production :=
  .node (.always .withItem) <| .seq (.call .expression) <|
    .cond (eat (.keyword .asWord)) (.call .bitOr) (.answer false)

private def enteredEnds : List TokenKind := [.symbol .comma, .symbol .colon]

private theorem fits_target (value : Expression) :
    Fits .bitOr (value.print.guard .bitOr value.rule) :=
  (Phrase.proper value).guard (by decide)

private theorem takes_entered (entered : Entered)
    (hrest : enteredEnds.contains (Token.nextKind rest) = true) :
    Takes enteredItem true entered.print rest := by
  obtain ⟨value, target⟩ := entered
  cases target with
  | none =>
    have hvalue := value.fits_tight.takes rest (stops_of_ends hrest (by decide))
    have has : Token.nextKind rest ≠ .keyword .asWord := by
      intro heq
      rw [heq] at hrest
      cases hrest
    exact Takes.node (Takes.seq hvalue (Turns.eat_no has (Takes.answered false)))
  | some target =>
    have htarget := (fits_target target).takes rest (stops_of_ends hrest (by decide))
    have hvalue := value.fits_tight.takes
      (Token.word .asWord :: ((target.print.guard .bitOr target.rule).words ++ rest))
      (Stops.of_next (.keyword .asWord) rfl (by decide))
    exact Takes.node (Takes.seq hvalue (Takes.eat_yes rfl htarget))

/-- What is entered, before the colon of a `with` statement. -/
theorem takes_entering (first : Entered) (others : List Entered) (more : List Token) :
    Takes (.loop (.seq enteredItem (eat (.symbol .comma)))) true
      (.items ((first :: others).map Entered.print)) (Token.mark .colon :: more) := by
  have hends : enteredEnds.contains (Token.nextKind (Token.mark .colon :: more)) = true := rfl
  refine takes_commas (List.cons_ne_nil _ _) ?_ rfl hends nofun
  intro print hmem rest hrest
  obtain ⟨entered, _, rfl⟩ := List.mem_map.mp hmem
  exact ⟨true, takes_entered entered hrest⟩

theorem sound_entering (all : List Entered) :
    Sound (Print.items (all.map Entered.print)).words := by
  refine Print.sound_items ?_
  intro print hmem
  obtain ⟨⟨value, target⟩, _, rfl⟩ := List.mem_map.mp hmem
  cases target with
  | none => exact value.fits_tight.sound.append Sound.nil
  | some target =>
    exact value.fits_tight.sound.append (Sound.word .asWord (fits_target target).sound)

end Entered

/-- What is caught, before the colon of an `except` clause. -/
theorem takes_caught (caught : Option Caught) (more : List Token) :
    ∃ answer, Takes (.cond (next (.symbol .colon)) (.answer true) (.seq (.call .expression) asName))
      answer (.caught caught) (Token.mark .colon :: more) := by
  cases caught with
  | none => exact ⟨true, Turns.at_yes rfl (Takes.answered true)⟩
  | some caught =>
    obtain ⟨exception, name⟩ := caught
    have hcolon : Token.nextKind (Token.mark .colon :: more) ≠ .keyword .asWord := nofun
    obtain ⟨answer, hname⟩ := takes_asName name hcolon
    have hnext : Stops .expression ((asPrint name).words ++ Token.mark .colon :: more) := by
      cases name with
      | none => exact Stops.of_next (.symbol .colon) rfl (by decide)
      | some name => exact Stops.of_next (.keyword .asWord) rfl (by decide)
    have hfirst : [TokenKind.symbol .colon].contains (Token.nextKind
        (exception.tight.words ++ ((asPrint name).words ++ Token.mark .colon :: more))) = false :=
      exception.fits_tight.opens.not_at (by decide) _
    refine ⟨answer, Turns.at_no ?_ (Takes.seq (exception.fits_tight.takes _ hnext) hname)⟩
    simpa [Print.caught] using hfirst

theorem sound_caught (caught : Option Caught) : Sound (Print.caught caught).words := by
  cases caught with
  | none => exact Sound.nil
  | some caught => exact caught.exception.fits_tight.sound.append (sound_asPrint caught.name)

end Syntax

end QuantumScript
