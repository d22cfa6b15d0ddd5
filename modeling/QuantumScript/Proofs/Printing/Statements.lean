import QuantumScript.Proofs.Printing.Imports
/-!
# Simple statements

Every simple statement is read back from its print, up to the end of its line.
-/

namespace QuantumScript

namespace Syntax

open Production

/-- Tokens that start a simple statement. -/
def simpleFirst : List TokenKind :=
  expressionFirst.append
    [.keyword .passWord, .keyword .breakWord, .keyword .continueWord, .keyword .returnWord,
      .keyword .importWord, .keyword .fromWord, .keyword .raiseWord, .keyword .assertWord,
      .keyword .delWord, .keyword .globalWord, .keyword .nonlocalWord]

/-- The print is one of a simple statement. -/
abbrev Simply (print : Print) : Prop := Listed (.call .simpleStatement) simpleFirst [.newline] print

variable {rest : List Token} {print : Print} {prints : List Print} {body : Production} {answer : Bool}

section Soundness

theorem sound_concat (h : ∀ print ∈ prints, Sound print.words) : Sound (Print.concat prints).words := by
  induction prints with
  | nil => exact Sound.nil
  | cons print prints ih =>
    exact (h print (by simp)).append (ih fun other hmem => h other (by simp [hmem]))

theorem sound_asPrint (newName : Option Name) : Sound (asPrint newName).words := by
  cases newName with
  | none => exact Sound.nil
  | some token => exact Sound.word .asWord (fits_name token).sound

theorem sound_path (path : Path) : Sound path.print.words := by
  refine (fits_name path.first).sound.append (sound_concat ?_)
  intro print hmem
  obtain ⟨token, _, rfl⟩ := List.mem_map.mp hmem
  exact Sound.mark rfl rfl (fits_name token).sound

theorem sound_dots (dots : Nat) : Sound (Print.concat (List.replicate dots (.mark .dot))).words := by
  refine sound_concat ?_
  intro print hmem
  rw [List.eq_of_mem_replicate hmem]
  exact Sound.mark rfl rfl Sound.nil

theorem sound_modules (items : List ModuleAlias) :
    Sound (Print.items (items.map ModuleAlias.print)).words := by
  refine Print.sound_items ?_
  intro print hmem
  obtain ⟨item, _, rfl⟩ := List.mem_map.mp hmem
  exact (sound_path item.path).append (sound_asPrint item.newName)

theorem sound_names (items : List NameAlias) : Sound (Print.items (items.map NameAlias.print)).words := by
  refine Print.sound_items ?_
  intro print hmem
  obtain ⟨item, _, rfl⟩ := List.mem_map.mp hmem
  exact (fits_name item.name).sound.append (sound_asPrint item.newName)

private theorem sound_imported (names : Imported) : Sound names.print.words := by
  cases names with
  | all => exact Sound.mark rfl rfl Sound.nil
  | names parenthesized first others =>
    cases parenthesized with
    | true => exact Sound.between (sound_names (first :: others))
    | false => exact sound_names (first :: others)

private theorem sound_assigned (values : List Expression) :
    Sound (Print.concat (values.map fun value => .mark .equals ++ value.loose)).words := by
  refine sound_concat ?_
  intro print hmem
  obtain ⟨value, _, rfl⟩ := List.mem_map.mp hmem
  exact Sound.mark rfl rfl value.fits_loose.sound

end Soundness

/-- The node of a statement that begins with the keyword, and the script that reads it. -/
private def keywordForm : Keyword → Option (NodeKind × Production)
  | .passWord => some (.passStatement, .bump (.keyword .passWord))
  | .breakWord => some (.breakStatement, .bump (.keyword .breakWord))
  | .continueWord => some (.continueStatement, .bump (.keyword .continueWord))
  | .returnWord =>
    some (.returnStatement, .seq (.bump (.keyword .returnWord)) <|
      .cond (.ask (.at Parse.statementEnds)) (.answer true) (.call .expressionList))
  | .importWord => some (.importStatement, importStatement)
  | .fromWord => some (.fromImportStatement, fromImportStatement)
  | .raiseWord => some (.raiseStatement, raiseStatement)
  | .assertWord =>
    some (.assertStatement, steps
      [ .bump (.keyword .assertWord),
        .call .expression,
        .cond (eat (.symbol .comma)) (.call .expression) (.answer false) ])
  | .delWord => some (.delStatement, .seq (.bump (.keyword .delWord)) (.call .targetList))
  | .globalWord | .nonlocalWord =>
    some (.globalStatement, .seq .advance (.loop (.seq name (eat (.symbol .comma)))))
  | _ => none

private theorem takes_keyword {keyword : Keyword} {kind : NodeKind}
    (hform : keywordForm keyword = some (kind, body))
    (hnext : Token.nextKind (print.words ++ rest) = .keyword keyword)
    (h : Takes (Script.statement kind body) true print rest) :
    Takes (grammar .simpleStatement) true print rest := by
  cases keyword with
  | passWord | breakWord | continueWord | returnWord | importWord | fromWord | raiseWord | assertWord
  | delWord | globalWord | nonlocalWord =>
    cases hform
    repeat
      first
      | exact Turns.at_yes (by rw [hnext]; rfl) h
      | refine Turns.at_no (by rw [hnext]; rfl) ?_
  | _ => cases hform

private theorem simply_keyword (keyword : Keyword) {kind : NodeKind} {words : List Token}
    (hform : keywordForm keyword = some (kind, body))
    (hwords : print.words = Token.word keyword :: words) (hsound : Sound words)
    (h : ∀ rest, Token.nextKind rest = .newline → ∃ answer, Takes body answer print rest) :
    Simply (print.node kind) := by
  have hnext (rest : List Token) : Token.nextKind (print.words ++ rest) = .keyword keyword := by
    rw [hwords]
    rfl
  refine ⟨?_, ?_, ?_⟩
  · change simpleFirst.contains (Token.nextKind print.words) = true
    rw [hwords]
    cases keyword with
    | passWord | breakWord | continueWord | returnWord | importWord | fromWord | raiseWord
    | assertWord | delWord | globalWord | nonlocalWord => rfl
    | _ => cases hform
  · intro rest hrest
    have hnewline : Token.nextKind rest = .newline := by simpa using hrest
    obtain ⟨answer, hbody⟩ := h rest hnewline
    exact Turns.call (takes_keyword hform (hnext rest) (takes_statement hbody hnewline))
  · change Sound print.words
    rw [hwords]
    exact Sound.word keyword hsound

private theorem simply_value {first : Expression} {tail : Print} (hsound : Sound tail.words)
    (h : ∀ rest, Token.nextKind rest = .newline →
      Takes expressionStatement true (first.loose ++ tail) rest) :
    Simply ((first.loose ++ tail).node .expressionStatement) := by
  have hnone {kinds : List TokenKind} (hkinds : ∀ kind ∈ kinds, kind ∉ expressionFirst)
      (rest : List Token) :
      kinds.contains (Token.nextKind ((first.loose ++ tail).words ++ rest)) = false := by
    rw [Print.words_append, List.append_assoc]
    exact first.fits_loose.opens.not_at hkinds _
  refine ⟨?_, ?_, first.fits_loose.sound.append hsound⟩
  · exact first.fits_loose.opens.starts (by decide) tail.words
  · intro rest hrest
    have hnewline : Token.nextKind rest = .newline := by simpa using hrest
    have hstatement : Takes (Script.statement .expressionStatement expressionStatement) true
        ((first.loose ++ tail).node .expressionStatement) rest :=
      takes_statement (h rest hnewline) hnewline
    apply Turns.call
    iterate 10 refine Turns.at_no (hnone (by decide) rest) ?_
    exact hstatement

private theorem at_newline (hrest : Token.nextKind rest = .newline) :
    Parse.statementEnds.contains (Token.nextKind rest) = true := by
  rw [hrest]
  rfl

private theorem takes_loose (value : Expression) (hrest : Token.nextKind rest = .newline) :
    Takes (.call .expressionList) true value.loose rest :=
  value.fits_loose.takes rest (Stops.of_next .newline hrest (by decide))

private theorem takes_tight (value : Expression) (hrest : Stops .expression rest) :
    Takes (.call .expression) true value.tight rest := value.fits_tight.takes rest hrest

private theorem stops_newline (hrest : Token.nextKind rest = .newline) : Stops .expression rest :=
  Stops.of_next .newline hrest (by decide)

section Forms

private theorem simply_word (keyword : Keyword) {kind : NodeKind}
    (hform : keywordForm keyword = some (kind, .bump (.keyword keyword))) :
    Simply ((Print.word keyword).node kind) :=
  simply_keyword keyword hform rfl Sound.nil fun rest _ => ⟨true, takes_word keyword rest⟩

private theorem simply_result (value : Option Expression) : Simply (Simple.result value).print := by
  cases value with
  | none =>
    refine simply_keyword .returnWord rfl rfl Sound.nil fun rest hrest => ⟨true, ?_⟩
    exact Takes.seq_still (takes_word .returnWord rest)
      (Turns.at_yes (at_newline hrest) (Takes.answered true))
  | some value =>
    refine simply_keyword .returnWord rfl rfl value.fits_loose.sound fun rest hrest => ⟨true, ?_⟩
    have hnone : Parse.statementEnds.contains (Token.nextKind (value.loose.words ++ rest)) = false :=
      value.fits_loose.opens.not_at (by decide) rest
    exact Takes.seq (takes_word .returnWord _) (Turns.at_no hnone (takes_loose value hrest))

private theorem takes_after {kind : TokenKind} (hkind : kind ≠ .newline)
    (hrest : Token.nextKind rest = .newline) :
    Takes (.cond (eat kind) (.call .expression) (.answer false)) false .empty rest := by
  refine Turns.eat_no ?_ (Takes.answered false)
  rw [Print.words_empty, List.nil_append, hrest]
  exact hkind.symm

private theorem simply_raise (exception : Expression) (cause : Option Expression) :
    Simply (Simple.raise exception cause).print := by
  have hnext (rest : List Token) : Parse.statementEnds.contains
      (Token.nextKind (exception.tight.words ++ rest)) = false :=
    exception.fits_tight.opens.not_at (by decide) rest
  cases cause with
  | none =>
    refine simply_keyword .raiseWord rfl rfl exception.fits_tight.sound fun rest hrest => ⟨false, ?_⟩
    have hnone : Takes (.cond (eat (.keyword .fromWord)) (.call .expression) (.answer false)) false
        .empty rest := takes_after nofun hrest
    exact Takes.seq (takes_word .raiseWord _) (Turns.at_no (hnext rest)
      (Takes.seq_still (takes_tight exception (stops_newline hrest)) hnone))
  | some cause =>
    have hsound : Sound (exception.tight ++ (Print.word .fromWord ++ cause.tight)).words :=
      exception.fits_tight.sound.append (Sound.word .fromWord cause.fits_tight.sound)
    refine simply_keyword .raiseWord rfl rfl hsound fun rest hrest => ⟨true, ?_⟩
    have hfrom : Stops .expression (Token.word .fromWord :: (cause.tight.words ++ rest)) :=
      Stops.of_next (.keyword .fromWord) rfl (by decide)
    have htail : Takes (.cond (eat (.keyword .fromWord)) (.call .expression) (.answer false)) true
        (.word .fromWord ++ cause.tight) rest :=
      Takes.eat_yes rfl (takes_tight cause (stops_newline hrest))
    refine Takes.seq (takes_word .raiseWord _) (Turns.at_no ?_
      (Takes.seq (takes_tight exception hfrom) htail))
    rw [Print.words_append, List.append_assoc]
    exact hnext _

private theorem simply_reraise : Simply Simple.reraise.print := by
  refine simply_keyword .raiseWord rfl rfl Sound.nil fun rest hrest => ⟨true, ?_⟩
  exact Takes.seq_still (takes_word .raiseWord rest)
    (Turns.at_yes (at_newline hrest) (Takes.answered true))

private theorem simply_assertion (condition : Expression) (message : Option Expression) :
    Simply (Simple.assertion condition message).print := by
  cases message with
  | none =>
    refine simply_keyword .assertWord rfl rfl condition.fits_tight.sound
      fun rest hrest => ⟨false, ?_⟩
    have hnone : Takes (.cond (eat (.symbol .comma)) (.call .expression) (.answer false)) false
        .empty rest := takes_after nofun hrest
    exact Takes.seq (takes_word .assertWord _)
      (Takes.seq_still (takes_tight condition (stops_newline hrest)) hnone)
  | some message =>
    have hsound : Sound (condition.tight ++ (Print.mark .comma ++ message.tight)).words :=
      condition.fits_tight.sound.append (Sound.mark rfl rfl message.fits_tight.sound)
    refine simply_keyword .assertWord rfl rfl hsound fun rest hrest => ⟨true, ?_⟩
    have hcomma : Stops .expression (Token.mark .comma :: (message.tight.words ++ rest)) :=
      Stops.of_next (.symbol .comma) rfl (by decide)
    have htail : Takes (.cond (eat (.symbol .comma)) (.call .expression) (.answer false)) true
        (.mark .comma ++ message.tight) rest :=
      Takes.eat_yes rfl (takes_tight message (stops_newline hrest))
    exact Takes.seq (takes_word .assertWord _) (Takes.seq (takes_tight condition hcomma) htail)

private theorem simply_delete (targets : Phrase .targets) : Simply (Simple.delete targets).print := by
  have htargets : Row .target targets.print := Phrase.proper targets
  refine simply_keyword .delWord rfl rfl htargets.sound fun rest hrest => ⟨true, ?_⟩
  have hstop : RowStops .target rest := by
    refine ⟨Stops.of_next .newline hrest (by decide), ?_, ?_⟩
    · rw [hrest]
      exact nofun
    · rw [hrest]
      rfl
  exact Takes.seq (takes_word .delWord _) (Turns.call (htargets.takes rest hstop))

private theorem simply_declare (nonlocal : Bool) (first : Name) (others : List Name) :
    Simply (Simple.declare nonlocal first others).print := by
  have hsound : Sound (Print.items ((first :: others).map Print.name)).words := by
    refine Print.sound_items ?_
    intro print hmem
    obtain ⟨token, _, rfl⟩ := List.mem_map.mp hmem
    exact (fits_name token).sound
  cases nonlocal with
  | false =>
    refine simply_keyword .globalWord rfl rfl hsound fun rest hrest => ⟨true, ?_⟩
    exact Takes.seq (Takes.advance nofun) (takes_names first others hrest)
  | true =>
    refine simply_keyword .nonlocalWord rfl rfl hsound fun rest hrest => ⟨true, ?_⟩
    exact Takes.seq (Takes.advance nofun) (takes_names first others hrest)

/-- Names that are read in any way, imported from a path. -/
theorem simply_fromImport (dots : Nat) (path : Path) {names : Print} (hsound : Sound names.words)
    (h : ∀ rest, Token.nextKind rest = .newline → Takes importedNames true names rest) :
    Simply ((Print.word .fromWord ++ ((.concat (List.replicate dots (.mark .dot)) ++ path.print).node
      .dottedName ++ (.word .importWord ++ names))).node .fromImportStatement) := by
  have hall := ((sound_dots dots).append (sound_path path)).append (Sound.word .importWord hsound)
  exact simply_keyword .fromWord rfl rfl hall fun rest hrest =>
    ⟨true, takes_fromImport dots path (h rest hrest)⟩

end Forms

/-- Every simple statement is read back from its print. -/
theorem Simple.simply (simple : Simple) : Simply simple.print := by
  cases simple with
  | expression value =>
    have hvalue : Simply ((value.loose ++ .empty).node .expressionStatement) :=
      simply_value Sound.nil fun rest => takes_values value []
    rw [Print.append_empty] at hvalue
    exact hvalue
  | annotated target hint value =>
    have hhint : Sound (Print.mark .colon ++ hint.tight).words :=
      Sound.mark rfl rfl hint.fits_tight.sound
    exact simply_value (hhint.append (sound_assigned value.toList)) fun rest =>
      takes_annotated target hint value.toList
  | assignment first second others =>
    exact simply_value (sound_assigned _) fun rest => takes_values first (second :: others)
  | augmented target operator value =>
    have hkind : operator.token.kind = .symbol .augmented := by simpa using operator.kind
    have hsound : Sound (Print.leaf operator.token ++ value.loose).words :=
      Sound.cons operator.plain (by rw [hkind]; rfl) (by rw [hkind]; rfl) value.fits_loose.sound
    exact simply_value hsound fun rest => takes_augmented target value operator
  | pass => exact simply_word .passWord rfl
  | leave => exact simply_word .breakWord rfl
  | again => exact simply_word .continueWord rfl
  | result value => exact simply_result value
  | reraise => exact simply_reraise
  | raise exception cause => exact simply_raise exception cause
  | assertion condition message => exact simply_assertion condition message
  | delete targets => exact simply_delete targets
  | declare nonlocal first others => exact simply_declare nonlocal first others
  | modules first others =>
    exact simply_keyword .importWord rfl rfl (sound_modules (first :: others)) fun rest hrest =>
      ⟨true, takes_modules first others hrest⟩
  | imported dots path names =>
    exact simply_fromImport dots path (sound_imported names) fun _ => takes_imported names

end Syntax

end QuantumScript
