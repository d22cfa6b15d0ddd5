import QuantumScript.Syntax.Error
import QuantumScript.Syntax.Tree
/-!
# Parsing scripts

A production of a grammar is a script: a tree of steps that look at the next token, take it, book
errors and wrap finished parts into nodes. Scripts are data, so that a law of all parses is one
induction over the steps. The finished parts stand in one row; a node remembers how long the row
was when the node began, and takes all that was added since. Running a script is total: a step
that a sound grammar never takes sets a fault and goes on.
-/

namespace QuantumScript

namespace Syntax

/-- Questions about the tokens ahead, blanks and comments left out. -/
inductive Lookahead
  /-- The next token has one of these kinds. -/
  | at (kinds : List TokenKind)
  /-- The next token has one of these kinds and the one after it the other kind. -/
  | atPair (kinds : List TokenKind) (second : TokenKind)
  deriving DecidableEq, Repr

/-- How the kind of a node follows from its parts. -/
inductive Label
  | always (kind : NodeKind)
  /-- A comprehension if there is a `for` clause, else the given kind. -/
  | unlessComprehension (kind : NodeKind)
  /-- A function or class by its keyword, an error if it has neither. -/
  | definition
  deriving DecidableEq, Repr

namespace Label

def resolve (label : Label) (children : List Tree) : NodeKind :=
  match label with
  | .always kind => kind
  | .unlessComprehension kind =>
    if children.any fun tree => tree.nodeKind? = some .forClause then .comprehension else kind
  | .definition =>
    if children.any fun tree => tree.tokenKind? = some (.keyword .defWord) then .function
    else if children.any fun tree => tree.tokenKind? = some (.keyword .classWord) then
      .classDefinition
    else .error

end Label

/-- Steps of a production, with calls of the productions `Rule`. A script answers yes or no. -/
inductive Script (Rule : Type)
  /-- Does nothing and gives the answer. -/
  | answer (value : Bool)
  /-- Takes the next token, which must have this kind. -/
  | bump (kind : TokenKind)
  /-- The next token must have one of these kinds. -/
  | demand (kinds : List TokenKind)
  /-- Takes the next token, whatever it is; does nothing at the end. -/
  | advance
  /-- Books an error at the next token. -/
  | report (problem : Problem)
  /-- Answers a question about the tokens ahead. -/
  | ask (question : Lookahead)
  | call (rule : Rule)
  /-- Runs both parts and gives the answer of the second. -/
  | seq (first second : Script Rule)
  /-- Goes on by the answer of the first part. -/
  | cond (test yes no : Script Rule)
  /-- Makes a node of all that the body takes. -/
  | node (label : Label) (body : Script Rule)
  /-- Makes a node of the node completed last and all that has come after it, with all that the
  body takes. -/
  | wrap (kind : NodeKind) (body : Script Rule)
  /-- Makes a node of a simple statement. All that stands after the body up to the end of the
  statement is taken too; the node is an error if an error was booked meanwhile. -/
  | statement (kind : NodeKind) (body : Script Rule)
  /-- Repeats the body as long as it answers yes. -/
  | loop (body : Script Rule)
  deriving Repr

/-- A parse on its way. -/
structure Parse where
  /-- Tokens not taken yet. -/
  rest : List Token
  /-- Offset of the first of them. -/
  offset : Nat
  /-- Finished parts that have no node above them yet, last one first. -/
  parts : List Tree
  /-- Number of parts before the node that was completed last. -/
  mark : Nat
  /-- Booked errors, last one first. -/
  errors : List Error
  /-- A step was taken that a sound grammar never takes. -/
  fault : Bool
  deriving Repr

namespace Parse

/-- A parse that has not begun. -/
def start (tokens : List Token) : Parse := ⟨tokens, 0, [], 0, [], false⟩

/-- The tokens ahead from the next significant one on. -/
def ahead (parse : Parse) : List Token := parse.rest.dropWhile Token.isTrivia

/-- Kind of the next significant token. -/
def current (parse : Parse) : TokenKind :=
  match parse.ahead with
  | [] => .endOfInput
  | token :: _ => token.kind

/-- Kind of the significant token after the next one. -/
def second (parse : Parse) : TokenKind :=
  match parse.ahead with
  | [] => .endOfInput
  | _ :: tokens =>
    match tokens.dropWhile Token.isTrivia with
    | [] => .endOfInput
    | token :: _ => token.kind

/-- Text of the next significant token, empty at the end. -/
def currentText (parse : Parse) : List Char :=
  match parse.ahead with
  | [] => []
  | token :: _ => token.text

/-- Span of the next significant token, empty at the end. -/
def here (parse : Parse) : Span :=
  let skipped := parse.rest.takeWhile Token.isTrivia
  let start := parse.offset + Text.byteLength (skipped.flatMap Token.text)
  ⟨start, start + Text.byteLength parse.currentText⟩

def fail (parse : Parse) : Parse := { parse with fault := true }

def book (problem : Problem) (parse : Parse) : Parse :=
  { parse with errors := ⟨problem, parse.here⟩ :: parse.errors }

/-- Moves the first token from the rest to the parts. -/
def shift (parse : Parse) : Parse :=
  match parse.rest with
  | [] => parse
  | token :: rest =>
    { parse with
      rest
      offset := parse.offset + Text.byteLength token.text
      parts := .token token.kind token.text :: parse.parts }

/-- Takes all tokens at the front that satisfy `p`. -/
def shiftWhile (p : Token → Bool) (parse : Parse) : Parse :=
  (parse.rest.takeWhile p).foldl (fun parse _ => parse.shift) parse

/-- Takes the blanks and comments at the front. -/
def flush (parse : Parse) : Parse := parse.shiftWhile Token.isTrivia

/-- Takes the next significant token with what stands before it. Does nothing at the end. -/
def take (parse : Parse) : Parse :=
  if parse.current = .endOfInput then parse else parse.flush.shift

/-- Makes a node of the parts from a checkpoint on. The checkpoint must not lie beyond the parts. -/
def close (label : List Tree → NodeKind) (checkpoint : Nat) (parse : Parse) : Parse :=
  if checkpoint ≤ parse.parts.length then
    let count := parse.parts.length - checkpoint
    let children := (parse.parts.take count).reverse
    { parse with
      parts := .node (label children) children :: parse.parts.drop count
      mark := checkpoint }
  else parse.fail

/-- Number of significant tokens not taken yet. -/
def remaining (parse : Parse) : Nat := parse.rest.countP fun token => !token.isTrivia

/-- Kinds of tokens that end a simple statement. -/
def statementEnds : List TokenKind := [.newline, .endOfInput, .symbol .semicolon]

private theorem foldl_shift (tokens rest : List Token) (parse : Parse)
    (h : parse.rest = tokens ++ rest) :
    tokens.foldl (fun parse _ => parse.shift) parse =
      { parse with
        rest
        offset := parse.offset + Text.byteLength (tokens.flatMap Token.text)
        parts := (tokens.map fun token => Tree.token token.kind token.text).reverse ++
          parse.parts } := by
  induction tokens generalizing parse with
  | nil => cases parse; simp_all
  | cons token tokens ih =>
    have hshift : parse.shift.rest = tokens ++ rest := by simp [shift, h]
    rw [List.foldl_cons, ih _ hshift]
    simp [shift, h, Nat.add_assoc]

/-- Taking the tokens at the front moves them to the parts as they are. -/
theorem shiftWhile_eq (p : Token → Bool) (parse : Parse) :
    parse.shiftWhile p =
      { parse with
        rest := parse.rest.dropWhile p
        offset := parse.offset + Text.byteLength ((parse.rest.takeWhile p).flatMap Token.text)
        parts := ((parse.rest.takeWhile p).map fun token =>
          Tree.token token.kind token.text).reverse ++ parse.parts } :=
  foldl_shift _ _ parse (List.takeWhile_append_dropWhile).symm

theorem remaining_flush (parse : Parse) : parse.flush.remaining = parse.remaining := by
  rw [flush, shiftWhile_eq]
  unfold remaining
  conv => rhs; rw [← List.takeWhile_append_dropWhile (p := Token.isTrivia) (l := parse.rest)]
  rw [List.countP_append]
  have htrivia : (parse.rest.takeWhile Token.isTrivia).countP (fun token => !token.isTrivia) = 0 := by
    rw [List.countP_eq_zero]
    intro token hmem
    simp [List.all_eq_true.mp List.all_takeWhile token hmem]
  simp [htrivia]

/-- Unless the end is reached, taking a token leaves fewer of them. -/
theorem remaining_take_lt (parse : Parse) (h : parse.current ≠ .endOfInput) :
    parse.take.remaining < parse.remaining := by
  rw [take, if_neg h, ← remaining_flush parse]
  have hahead : parse.flush.rest = parse.ahead := by rw [flush, shiftWhile_eq, ahead]
  unfold current at h
  unfold remaining shift
  rw [hahead]
  split at h
  · exact absurd rfl h
  · rename_i token tokens heq
    have htoken : token.isTrivia = false := by
      have := List.head?_dropWhile_not Token.isTrivia parse.rest
      rw [ahead] at heq
      simpa [heq] using this
    simp [heq, htoken]

/-- Takes tokens up to the end of a simple statement. -/
def skip (parse : Parse) : Parse :=
  if _h : statementEnds.contains parse.current then parse else skip parse.take
  termination_by parse.remaining
  decreasing_by
    apply remaining_take_lt
    intro hend
    simp_all [statementEnds]

/-- Takes all that is left of a simple statement. It is an error unless one was booked already. -/
def finishStatement (booked : Nat) (parse : Parse) : Parse :=
  if statementEnds.contains parse.current then parse
  else if parse.errors.length = booked then (parse.book (.unexpected parse.currentText)).skip
  else parse.skip

end Parse

/-- What a script does to a parse: an answer and the parse after it. -/
abbrev Action := Parse → Bool × Parse

def Lookahead.holds (question : Lookahead) (parse : Parse) : Bool :=
  match question with
  | .at kinds => kinds.contains parse.current
  | .atPair kinds second => kinds.contains parse.current && parse.second = second

/-- Repeats an action as long as it answers yes. A round that answers yes must take a token. -/
def Action.iterate (action : Action) (parse : Parse) : Parse :=
  match action parse with
  | (true, next) =>
    if next.remaining < parse.remaining then Action.iterate action next else next.fail
  | (false, next) => next
  termination_by parse.remaining

theorem Action.iterate_no {action : Action} {parse next : Parse}
    (h : action parse = (false, next)) : Action.iterate action parse = next := by
  rw [Action.iterate, h]

theorem Action.iterate_yes {action : Action} {parse next : Parse}
    (h : action parse = (true, next)) (hless : next.remaining < parse.remaining) :
    Action.iterate action parse = Action.iterate action next := by
  rw [Action.iterate, h]
  exact if_pos hless

theorem Action.iterate_congr {action : Action} {parse other : Parse}
    (h : action parse = action other) (hremaining : parse.remaining = other.remaining) :
    Action.iterate action parse = Action.iterate action other := by
  rw [Action.iterate, Action.iterate, h, hremaining]

namespace Script

variable {Rule : Type}

/-- Runs a script whose calls mean `rules`. -/
def run (rules : Rule → Action) : Script Rule → Action
  | .answer value, parse => (value, parse)
  | .bump kind, parse => if parse.current = kind then (true, parse.take) else (false, parse.fail)
  | .demand kinds, parse =>
    if kinds.contains parse.current then (true, parse) else (false, parse.fail)
  | .advance, parse => (true, parse.take)
  | .report problem, parse => (false, parse.book problem)
  | .ask question, parse => (question.holds parse, parse)
  | .call rule, parse => rules rule parse
  | .seq first second, parse => run rules second (run rules first parse).2
  | .cond test yes no, parse =>
    match run rules test parse with
    | (true, next) => run rules yes next
    | (false, next) => run rules no next
  | .node label body, parse =>
    let before := parse.flush
    (true, (run rules body before).2.close label.resolve before.parts.length)
  | .wrap kind body, parse =>
    (true, (run rules body parse).2.close (fun _ => kind) parse.mark)
  | .statement kind body, parse =>
    let before := parse.flush
    let booked := before.errors.length
    let after := (run rules body before).2.finishStatement booked
    let label := if booked < after.errors.length then .error else kind
    (true, after.close (fun _ => label) before.parts.length)
  | .loop body, parse => (true, Action.iterate (run rules body) parse)

section Equations

variable (rules : Rule → Action) (parse : Parse)

theorem run_bump (kind : TokenKind) :
    run rules (.bump kind) parse =
      if parse.current = kind then (true, parse.take) else (false, parse.fail) := rfl

theorem run_demand (kinds : List TokenKind) :
    run rules (.demand kinds) parse =
      if kinds.contains parse.current then (true, parse) else (false, parse.fail) := rfl

theorem run_ask (question : Lookahead) :
    run rules (.ask question) parse = (question.holds parse, parse) := rfl

theorem run_seq (first second : Script Rule) :
    run rules (.seq first second) parse = run rules second (run rules first parse).2 := rfl

theorem run_cond (test yes no : Script Rule) :
    run rules (.cond test yes no) parse =
      if (run rules test parse).1 then run rules yes (run rules test parse).2
      else run rules no (run rules test parse).2 := by
  rw [run]
  split <;> rename_i heq <;> rw [heq] <;> rfl

theorem run_node (label : Label) (body : Script Rule) :
    run rules (.node label body) parse =
      (true, (run rules body parse.flush).2.close label.resolve parse.flush.parts.length) := rfl

theorem run_wrap (kind : NodeKind) (body : Script Rule) :
    run rules (.wrap kind body) parse =
      (true, (run rules body parse).2.close (fun _ => kind) parse.mark) := rfl

theorem run_statement (kind : NodeKind) (body : Script Rule) :
    run rules (.statement kind body) parse =
      let after := (run rules body parse.flush).2.finishStatement parse.flush.errors.length
      let label := if parse.flush.errors.length < after.errors.length then .error else kind
      (true, after.close (fun _ => label) parse.flush.parts.length) := rfl

theorem run_loop (body : Script Rule) :
    run rules (.loop body) parse = (true, Action.iterate (run rules body) parse) := rfl

end Equations

/-- Runs a rule of a grammar with calls nested at most `depth` deep. -/
def runRule (grammar : Rule → Script Rule) : Nat → Rule → Action
  | 0, _, parse => (false, parse.fail)
  | depth + 1, rule, parse => run (runRule grammar depth) (grammar rule) parse

end Script

end Syntax

end QuantumScript
