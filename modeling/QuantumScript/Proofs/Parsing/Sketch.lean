import QuantumScript.Syntax.Grammar
/-!
# Sketches of a parse

A sketch is what is left of a parse without blanks, comments and places: the significant tokens
ahead, bare trees and the problems that were booked. Reading a script on sketches is strict. It has
no result where running the script would take a step that a sound grammar never takes, and none if
reading goes on forever. Each form of script has one equation, so that scripts are read by rewriting.
-/

namespace QuantumScript

namespace Syntax

namespace Tree

/-- A blank or a comment. -/
def isTrivia : Tree → Bool
  | .token kind _ => kind.isTrivia
  | .node _ _ => false

mutual

/-- The tree without the blanks and comments below it. -/
def bare : Tree → Tree
  | .token kind text => .token kind text
  | .node kind children => .node kind (bareAll children)

/-- The trees that are left without blanks and comments, each of them bare. -/
def bareAll : List Tree → List Tree
  | [] => []
  | tree :: trees => if tree.isTrivia then bareAll trees else bare tree :: bareAll trees

end

theorem bareAll_nil : bareAll [] = [] := rfl

theorem bareAll_cons (tree : Tree) (trees : List Tree) :
    bareAll (tree :: trees) = if tree.isTrivia then bareAll trees else bare tree :: bareAll trees :=
  rfl

theorem bareAll_append (trees others : List Tree) :
    bareAll (trees ++ others) = bareAll trees ++ bareAll others := by
  induction trees with
  | nil => rfl
  | cons tree trees ih =>
    rw [List.cons_append, bareAll_cons, bareAll_cons]
    split <;> simp [ih]

theorem bareAll_reverse (trees : List Tree) :
    bareAll trees.reverse = (bareAll trees).reverse := by
  induction trees with
  | nil => rfl
  | cons tree trees ih =>
    rw [List.reverse_cons, bareAll_append, ih, bareAll_cons, bareAll_cons]
    split <;> simp [bareAll_nil]

private theorem tokenKind?_bare (tree : Tree) : tree.bare.tokenKind? = tree.tokenKind? := by
  cases tree <;> rfl

theorem nodeKind?_bare (tree : Tree) : tree.bare.nodeKind? = tree.nodeKind? := by
  cases tree <;> rfl

private theorem any_bareAll (p : Tree → Bool) (htrivia : ∀ tree, tree.isTrivia = true → p tree = false)
    (hbare : ∀ tree : Tree, p tree.bare = p tree) (trees : List Tree) :
    (bareAll trees).any p = trees.any p := by
  induction trees with
  | nil => rfl
  | cons tree trees ih =>
    rw [bareAll_cons, List.any_cons]
    split
    · rename_i h
      rw [ih, htrivia tree h, Bool.false_or]
    · rw [List.any_cons, hbare, ih]

end Tree

/-- The label of a node does not depend on blanks and comments. -/
theorem Label.resolve_bareAll (label : Label) (trees : List Tree) :
    label.resolve (Tree.bareAll trees) = label.resolve trees := by
  have hnode (kind : NodeKind) := Tree.any_bareAll (fun tree => tree.nodeKind? = some kind)
    (by intro tree h; cases tree <;> simp_all [Tree.isTrivia, Tree.nodeKind?])
    (by intro tree; simp only [Tree.nodeKind?_bare]) trees
  have htoken (keyword : Keyword) := Tree.any_bareAll
    (fun tree => tree.tokenKind? = some (.keyword keyword))
    (by
      intro tree h
      cases tree <;> simp_all [Tree.isTrivia, Tree.tokenKind?]
      intro heq
      simp [heq, TokenKind.isTrivia] at h)
    (by intro tree; simp only [Tree.tokenKind?_bare]) trees
  cases label <;> simp only [resolve, hnode, htoken]

/-- The tree of a token. -/
def Token.leaf (token : Token) : Tree := .token token.kind token.text

/-- The significant tokens ahead, the finished parts of the node that is being made and the
problems booked so far, the last two with the last one first. -/
structure Sketch where
  rest : List Token
  parts : List Tree
  problems : List Problem

namespace Sketch

/-- Kind of the next token. -/
def current (sketch : Sketch) : TokenKind :=
  match sketch.rest with
  | [] => .endOfInput
  | token :: _ => token.kind

/-- Kind of the token after the next one. -/
def second (sketch : Sketch) : TokenKind :=
  match sketch.rest with
  | _ :: token :: _ => token.kind
  | _ => .endOfInput

/-- Text of the next token, empty at the end. -/
def currentText (sketch : Sketch) : List Char :=
  match sketch.rest with
  | [] => []
  | token :: _ => token.text

/-- Takes the next token. -/
def take (sketch : Sketch) : Sketch :=
  match sketch.rest with
  | [] => sketch
  | token :: rest => { sketch with rest, parts := token.leaf :: sketch.parts }

def book (problem : Problem) (sketch : Sketch) : Sketch :=
  { sketch with problems := problem :: sketch.problems }

/-- The token does not end a simple statement. -/
def goesOn (token : Token) : Bool := !Parse.statementEnds.contains token.kind

/-- Takes tokens up to the end of a simple statement. -/
def skip (sketch : Sketch) : Sketch :=
  { sketch with
    rest := sketch.rest.dropWhile goesOn
    parts := ((sketch.rest.takeWhile goesOn).map Token.leaf).reverse ++ sketch.parts }

/-- Takes all that is left of a simple statement. It is an error unless one was booked already. -/
def finishStatement (booked : Nat) (sketch : Sketch) : Sketch :=
  if Parse.statementEnds.contains sketch.current then sketch
  else if sketch.problems.length = booked then
    (sketch.book (.unexpected sketch.currentText)).skip
  else sketch.skip

def holds (question : Lookahead) (sketch : Sketch) : Bool :=
  match question with
  | .at kinds => kinds.contains sketch.current
  | .atPair kinds second => kinds.contains sketch.current && sketch.second = second

end Sketch

namespace Script

variable {Rule : Type}

/-- Reads a script on a sketch. A round of a loop that goes on must leave fewer tokens. -/
def read (grammar : Rule → Script Rule) (script : Script Rule) (sketch : Sketch) :
    Option (Bool × Sketch) :=
  match script with
  | .answer value => some (value, sketch)
  | .bump kind => if sketch.current = kind then some (true, sketch.take) else none
  | .demand kinds => if kinds.contains sketch.current then some (true, sketch) else none
  | .advance => if sketch.current = .endOfInput then none else some (true, sketch.take)
  | .report problem => some (false, sketch.book problem)
  | .ask question => some (sketch.holds question, sketch)
  | .call rule => grammar rule |>.read grammar sketch
  | .seq first second => do
    let mid ← first |>.read grammar sketch
    second |>.read grammar mid.2
  | .cond test yes no => do
    let mid ← test |>.read grammar sketch
    if mid.1 then yes |>.read grammar mid.2 else no |>.read grammar mid.2
  | .node label body => do
    let after ← body |>.read grammar { sketch with parts := [] }
    let children := after.2.parts.reverse
    some (true, { after.2 with parts := .node (label.resolve children) children :: sketch.parts })
  | .wrap kind body =>
    match sketch.parts with
    | [] => none
    | part :: parts => do
      let after ← body |>.read grammar { sketch with parts := [part] }
      some (true, { after.2 with parts := .node kind after.2.parts.reverse :: parts })
  | .statement kind body => do
    let mid ← body |>.read grammar { sketch with parts := [] }
    let after := mid.2.finishStatement sketch.problems.length
    let label := if sketch.problems.length < after.problems.length then .error else kind
    some (true, { after with parts := .node label after.parts.reverse :: sketch.parts })
  | .loop body => do
    let mid ← body |>.read grammar sketch
    if mid.1 then
      if mid.2.rest.length < sketch.rest.length then script |>.read grammar mid.2 else none
    else some (true, mid.2)
partial_fixpoint

variable (grammar : Rule → Script Rule) (sketch : Sketch)

attribute [local simp] read

theorem read_answer (value : Bool) :
    read grammar (.answer value) sketch = some (value, sketch) := by
  simp

theorem read_bump (kind : TokenKind) :
    read grammar (.bump kind) sketch =
      if sketch.current = kind then some (true, sketch.take) else none := by
  simp

theorem read_demand (kinds : List TokenKind) :
    read grammar (.demand kinds) sketch =
      if kinds.contains sketch.current then some (true, sketch) else none := by
  simp

theorem read_advance :
    read grammar .advance sketch =
      if sketch.current = .endOfInput then none else some (true, sketch.take) := by
  simp

theorem read_report (problem : Problem) :
    read grammar (.report problem) sketch = some (false, sketch.book problem) := by
  simp

theorem read_ask (question : Lookahead) :
    read grammar (.ask question) sketch = some (sketch.holds question, sketch) := by
  simp

theorem read_call (rule : Rule) :
    read grammar (.call rule) sketch = read grammar (grammar rule) sketch := by
  simp

theorem read_seq (first second : Script Rule) :
    read grammar (.seq first second) sketch =
      (read grammar first sketch).bind fun mid => read grammar second mid.2 := by
  rw [read]
  rfl

theorem read_cond (test yes no : Script Rule) :
    read grammar (.cond test yes no) sketch =
      (read grammar test sketch).bind fun mid =>
        if mid.1 then read grammar yes mid.2 else read grammar no mid.2 := by
  rw [read]
  rfl

theorem read_node (label : Label) (body : Script Rule) :
    read grammar (.node label body) sketch =
      (read grammar body { sketch with parts := [] }).bind fun after =>
        some (true, { after.2 with
          parts := .node (label.resolve after.2.parts.reverse) after.2.parts.reverse ::
            sketch.parts }) := by
  rw [read]
  rfl

theorem read_wrap (kind : NodeKind) (body : Script Rule) (rest : List Token) (part : Tree)
    (parts : List Tree) (problems : List Problem) :
    read grammar (.wrap kind body) ⟨rest, part :: parts, problems⟩ =
      (read grammar body ⟨rest, [part], problems⟩).bind fun after =>
        some (true, { after.2 with parts := .node kind after.2.parts.reverse :: parts }) := by
  rw [read]
  rfl

theorem read_statement (kind : NodeKind) (body : Script Rule) :
    read grammar (.statement kind body) sketch =
      (read grammar body { sketch with parts := [] }).bind fun mid =>
        let after := mid.2.finishStatement sketch.problems.length
        let label := if sketch.problems.length < after.problems.length then .error else kind
        some (true, { after with parts := .node label after.parts.reverse :: sketch.parts }) := by
  rw [read]
  rfl

theorem read_loop (body : Script Rule) :
    read grammar (.loop body) sketch =
      (read grammar body sketch).bind fun mid =>
        if mid.1 then
          if mid.2.rest.length < sketch.rest.length then read grammar (.loop body) mid.2 else none
        else some (true, mid.2) := by
  rw [read]
  rfl

end Script

end Syntax

end QuantumScript
