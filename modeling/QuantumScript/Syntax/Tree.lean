import QuantumScript.Syntax.Kind
import QuantumScript.Text.Span
/-!
# Syntax trees

A tree keeps every token of its source, blanks and comments included, so that its leaves read from
left to right are the source.
-/

namespace QuantumScript

namespace Syntax

inductive Tree
  | token (kind : TokenKind) (text : List Char)
  | node (kind : NodeKind) (children : List Tree)
  deriving Repr

namespace Tree

mutual

/-- The leaves from left to right, each with its kind. -/
def leaves : Tree → List (TokenKind × List Char)
  | .token kind text => [(kind, text)]
  | .node _ children => leavesAll children

def leavesAll : List Tree → List (TokenKind × List Char)
  | [] => []
  | tree :: trees => leaves tree ++ leavesAll trees

end

/-- The source text below a tree. -/
def text (tree : Tree) : List Char := tree.leaves.flatMap Prod.snd

mutual

/-- Number of bytes of the source text below a tree. -/
def byteLength : Tree → Nat
  | .token _ text => Text.byteLength text
  | .node _ children => byteLengthAll children

def byteLengthAll : List Tree → Nat
  | [] => 0
  | tree :: trees => byteLength tree + byteLengthAll trees

end

mutual

theorem byteLength_eq (tree : Tree) : tree.byteLength = Text.byteLength tree.text := by
  match tree with
  | .token _ text => simp [byteLength, Tree.text, leaves]
  | .node _ children => exact byteLengthAll_eq children

theorem byteLengthAll_eq (trees : List Tree) :
    byteLengthAll trees = Text.byteLength ((leavesAll trees).flatMap Prod.snd) := by
  match trees with
  | [] => rfl
  | tree :: trees =>
    simp only [byteLengthAll, leavesAll, List.flatMap_append, Text.byteLength_append,
      byteLength_eq tree, byteLengthAll_eq trees, Tree.text]

end

/-- The kind of a node; none for a token. -/
def nodeKind? : Tree → Option NodeKind
  | .token _ _ => none
  | .node kind _ => some kind

/-- The kind of a token; none for a node. -/
def tokenKind? : Tree → Option TokenKind
  | .token kind _ => some kind
  | .node _ _ => none

end Tree

end Syntax

end QuantumScript
