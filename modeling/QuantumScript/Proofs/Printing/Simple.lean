import QuantumScript.Proofs.Printing.Texts
/-!
# Simple statements

The statements that hold no block, how they are printed on one line, and how they are read back.
-/

namespace QuantumScript

namespace Syntax

open Production

abbrev Expression := Phrase .expression

/-- Names with dots between them. -/
structure Path where
  first : Name
  others : List Name

/-- What is imported by its path, perhaps under another name. -/
structure ModuleAlias where
  path : Path
  newName : Option Name

/-- What is imported from a module, perhaps under another name. -/
structure NameAlias where
  name : Name
  newName : Option Name

inductive Imported
  | all
  | names (parenthesized : Bool) (first : NameAlias) (others : List NameAlias)

/-- All spellings of an operator that is combined with an assignment. -/
abbrev Augmented := Word [.symbol .augmented]

inductive Simple
  | expression (value : Expression)
  | annotated (target hint : Expression) (value : Option Expression)
  /-- A chain of targets before a value. -/
  | assignment (first second : Expression) (others : List Expression)
  | augmented (target : Expression) (operator : Augmented) (value : Expression)
  | pass
  | leave
  | again
  | result (value : Option Expression)
  | reraise
  | raise (exception : Expression) (cause : Option Expression)
  | assertion (condition : Expression) (message : Option Expression)
  | delete (targets : Phrase .targets)
  | declare (nonlocal : Bool) (first : Name) (others : List Name)
  | modules (first : ModuleAlias) (others : List ModuleAlias)
  | imported (dots : Nat) (path : Path) (names : Imported)

namespace Print

/-- The prints one after the other. -/
def concat : List Print → Print
  | [] => empty
  | print :: prints => print ++ concat prints

end Print

namespace Phrase

/-- An expression where lists without parentheses may stand. -/
def loose (value : Expression) : Print := value.print.guard .expressionList value.rule

/-- An expression where one is demanded. -/
def tight (value : Expression) : Print := value.print.guard .expression value.rule

theorem fits_loose (value : Expression) : Fits .expressionList value.loose :=
  (Phrase.proper value).guard (by decide)

theorem fits_tight (value : Expression) : Fits .expression value.tight :=
  (Phrase.proper value).guard (by decide)

end Phrase

open Print in
def Path.print (path : Path) : Print :=
  .name path.first ++ concat (path.others.map fun name => mark .dot ++ .name name)

open Print in
/-- The name after `as`. -/
def asPrint : Option Name → Print
  | none => empty
  | some newName => word .asWord ++ .name newName

def ModuleAlias.print (item : ModuleAlias) : Print :=
  (item.path.print.node .dottedName ++ asPrint item.newName).node .importAlias

def NameAlias.print (item : NameAlias) : Print :=
  (.name item.name ++ asPrint item.newName).node .importAlias

open Print in
def Imported.print : Imported → Print
  | .all => mark .star
  | .names parenthesized first others =>
    let listed := items ((first :: others).map NameAlias.print)
    if parenthesized then between .round listed else listed

open Print in
def Simple.print : Simple → Print
  | .expression value => value.loose.node .expressionStatement
  | .annotated target hint value =>
    (target.loose ++ ((mark .colon ++ hint.tight).node .typeHint ++
      concat (value.toList.map fun value => mark .equals ++ value.loose))).node .expressionStatement
  | .assignment first second others =>
    (first.loose ++ concat ((second :: others).map fun value => mark .equals ++ value.loose)).node
      .expressionStatement
  | .augmented target operator value =>
    (target.loose ++ (leaf operator.token ++ value.loose)).node .expressionStatement
  | .pass => (word .passWord).node .passStatement
  | .leave => (word .breakWord).node .breakStatement
  | .again => (word .continueWord).node .continueStatement
  | .result none => (word .returnWord).node .returnStatement
  | .result (some value) => (word .returnWord ++ value.loose).node .returnStatement
  | .reraise => (word .raiseWord).node .raiseStatement
  | .raise exception none => (word .raiseWord ++ exception.tight).node .raiseStatement
  | .raise exception (some cause) =>
    (word .raiseWord ++ (exception.tight ++ (word .fromWord ++ cause.tight))).node .raiseStatement
  | .assertion condition none => (word .assertWord ++ condition.tight).node .assertStatement
  | .assertion condition (some message) =>
    (word .assertWord ++ (condition.tight ++ (mark .comma ++ message.tight))).node .assertStatement
  | .delete targets => (word .delWord ++ targets.print).node .delStatement
  | .declare nonlocal first others =>
    (word (if nonlocal then .nonlocalWord else .globalWord) ++
      items ((first :: others).map Print.name)).node .globalStatement
  | .modules first others =>
    (word .importWord ++ items ((first :: others).map ModuleAlias.print)).node .importStatement
  | .imported dots path names =>
    (word .fromWord ++ ((concat (List.replicate dots (mark .dot)) ++ path.print).node .dottedName ++
      (word .importWord ++ names.print))).node .fromImportStatement

variable {rest : List Token} {print : Print} {body : Production} {answer : Bool}

/-- A simple statement that ends with its line. -/
theorem takes_statement {kind : NodeKind} (h : Takes body answer print rest)
    (hrest : Token.nextKind rest = .newline) :
    Takes (Script.statement kind body) true (print.node kind) rest := by
  intro parts problems
  have hbody := h [] problems
  rw [List.append_nil, List.append_nil] at hbody
  have hend : Parse.statementEnds.contains (Sketch.mk rest print.trees.reverse problems).current =
      true := by
    rw [Sketch.current_mk, hrest]
    rfl
  change Script.read grammar (Script.statement kind body) ⟨print.words ++ rest, parts, problems⟩ = _
  rw [Script.read_statement]
  change (Script.read grammar body ⟨print.words ++ rest, [].reverse, problems⟩).bind _ = _
  rw [hbody, Option.bind_some]
  simp only [Sketch.finishStatement, hend, if_true, Nat.lt_irrefl, if_false, List.reverse_reverse]
  rfl

section Values

private theorem stops_lineEnd (hrest : Token.nextKind rest = .newline) : Stops .expressionList rest :=
  Stops.of_next .newline hrest (by decide)

private theorem takes_valueList (value : Expression) (hrest : Stops .expressionList rest) :
    Takes valueList true value.loose rest :=
  Turns.at_no (value.fits_loose.opens.not_at (by decide) rest) (value.fits_loose.takes rest hrest)

private def assigned : Production :=
  .loop (.cond (eat (.symbol .equals)) (.seq valueList (.answer true)) (.answer false))

private def assignedPrint (values : List Expression) : Print :=
  .concat (values.map fun value => .mark .equals ++ value.loose)

private theorem nextKind_assigned (values : List Expression) (hrest : Token.nextKind rest = .newline) :
    Token.nextKind ((assignedPrint values).words ++ rest) = .newline ∨
      Token.nextKind ((assignedPrint values).words ++ rest) = .symbol .equals := by
  cases values with
  | nil => exact Or.inl hrest
  | cons value values => exact Or.inr rfl

private theorem stops_assigned (values : List Expression) (hrest : Token.nextKind rest = .newline) :
    Stops .expressionList ((assignedPrint values).words ++ rest) := by
  rcases nextKind_assigned values hrest with heq | heq
  · exact Stops.of_next _ heq (by decide)
  · exact Stops.of_next _ heq (by decide)

/-- The values after equals signs. The induction is on the values. -/
private theorem takes_assigned (values : List Expression) (hrest : Token.nextKind rest = .newline) :
    Takes assigned true (assignedPrint values) rest := by
  induction values with
  | nil =>
    have hequals : Token.nextKind rest ≠ .symbol .equals := by
      rw [hrest]
      exact nofun
    exact Turns.loop_no (Turns.eat_no hequals (Takes.answered false))
  | cons value values ih =>
    have hvalue := takes_valueList value (stops_assigned values hrest)
    have hround : Takes (.cond (eat (.symbol .equals)) (.seq valueList (.answer true)) (.answer false))
        true (.mark .equals ++ value.loose) ((assignedPrint values).words ++ rest) :=
      Takes.eat_yes rfl (Takes.seq_answer hvalue)
    exact Takes.loop_yes hround (List.cons_ne_nil _ _) ih

/-- What follows the first value of a statement, if it is no assignment with an operator. -/
private def tail : Production := .cond (eat (.symbol .augmented)) valueList assigned

private theorem takes_tail (values : List Expression) (hrest : Token.nextKind rest = .newline) :
    Takes tail true (assignedPrint values) rest := by
  refine Turns.eat_no ?_ (takes_assigned values hrest)
  rcases nextKind_assigned values hrest with heq | heq
  · rw [heq]
    exact nofun
  · rw [heq]
    exact nofun

theorem takes_values (first : Expression) (values : List Expression)
    (hrest : Token.nextKind rest = .newline) :
    Takes expressionStatement true
      (first.loose ++ .concat (values.map fun value => .mark .equals ++ value.loose)) rest := by
  have hfirst := takes_valueList first (stops_assigned values hrest)
  have hnone : Takes typeHint false .empty ((assignedPrint values).words ++ rest) := by
    refine takes_whenAt_none ?_
    rcases nextKind_assigned values hrest with heq | heq <;> rw [heq] <;> rfl
  exact Takes.seq hfirst (Takes.skip hnone (takes_tail values hrest))

theorem takes_annotated (target hint : Expression) (values : List Expression)
    (hrest : Token.nextKind rest = .newline) :
    Takes expressionStatement true
      (target.loose ++ ((.mark .colon ++ hint.tight).node .typeHint ++
        .concat (values.map fun value => .mark .equals ++ value.loose))) rest := by
  have htarget : Takes valueList true target.loose
      (Token.mark .colon :: (hint.tight.words ++ (assignedPrint values).words) ++ rest) :=
    takes_valueList target (Stops.of_next (.symbol .colon) rfl (by decide))
  have hstop := (stops_assigned values hrest).mono (by decide : Rule.expression.rank ≤ _)
  have hhint : Takes typeHint true ((.mark .colon ++ hint.tight).node .typeHint)
      ((assignedPrint values).words ++ rest) :=
    Turns.at_yes rfl (Takes.node (Takes.seq (takes_mark .colon _) (hint.fits_tight.takes _ hstop)))
  exact Takes.seq htarget (Takes.seq hhint (takes_tail values hrest))

theorem takes_augmented (target value : Expression) (operator : Augmented)
    (hrest : Token.nextKind rest = .newline) :
    Takes expressionStatement true (target.loose ++ (.leaf operator.token ++ value.loose)) rest := by
  have hkind : operator.token.kind = .symbol .augmented := by simpa using operator.kind
  have hnext : Token.nextKind ((Print.leaf operator.token ++ value.loose).words ++ rest) =
      .symbol .augmented := hkind
  have htarget : Takes valueList true target.loose
      ((Print.leaf operator.token ++ value.loose).words ++ rest) :=
    takes_valueList target (Stops.of_next _ hnext (by decide))
  have hnone : Takes typeHint false .empty
      ((Print.leaf operator.token ++ value.loose).words ++ rest) :=
    takes_whenAt_none (by rw [hnext]; rfl)
  have hvalue : Takes tail true (.leaf operator.token ++ value.loose) rest :=
    Takes.eat_yes hkind (takes_valueList value (stops_lineEnd hrest))
  exact Takes.seq htarget (Takes.skip hnone hvalue)

end Values

end Syntax

end QuantumScript
