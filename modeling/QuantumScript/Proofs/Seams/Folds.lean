import Mathlib
import QuantumScript.Folding
import QuantumScript.Source
import QuantumScript.Proofs.Parsing.Lossless
import QuantumScript.Proofs.Seams.Moving
import QuantumScript.Proofs.Seams.Places
import QuantumScript.Proofs.Seams.Splice
/-!
# Folding scripts one after the other

Folding looks at the places of a script only to write them into the terms. So a script that stands
elsewhere folds to the same terms at other places, and a script that follows another one folds to its own
statements, so many lines further on.
-/

namespace QuantumScript

open Text (LineIndex)

/-- The same columns, so many lines further on. -/
def Position.lower (lines : Nat) (position : Position) : Position :=
  { position with line := position.line + lines }

namespace Term

mutual

/-- The term so many lines further on. -/
def lower (lines : Nat) : Term → Term
  | .assignment target value => .assignment (lower lines target) (lower lines value)
  | .expression terms => .expression (lowerAll lines terms)
  | .reference name position => .reference name (position.lower lines)
  | .methodCall name arguments position =>
    .methodCall name (lowerAll lines arguments) (position.lower lines)
  | .element name index position => .element name index (position.lower lines)
  | .dictionary position => .dictionary (position.lower lines)
  | .integer value position => .integer value (position.lower lines)
  | .float value position => .float value (position.lower lines)
  | .text value position => .text value (position.lower lines)
  | .boolean value position => .boolean value (position.lower lines)

def lowerAll (lines : Nat) : List Term → List Term
  | [] => []
  | term :: terms => lower lines term :: lowerAll lines terms

end

@[simp] theorem lowerAll_eq (lines : Nat) (terms : List Term) :
    lowerAll lines terms = terms.map (lower lines) := by
  induction terms with
  | nil => rfl
  | cons term terms ih => rw [lowerAll, ih, List.map_cons]

mutual

theorem lower_zero (term : Term) : term.lower 0 = term := by
  cases term with
  | assignment target value => rw [lower, lower_zero target, lower_zero value]
  | expression terms => rw [lower, lowerAll_zero terms]
  | methodCall name arguments position =>
    rw [lower, lowerAll_zero arguments]
    rfl
  | _ => rfl

theorem lowerAll_zero (terms : List Term) : lowerAll 0 terms = terms := by
  cases terms with
  | nil => rfl
  | cons term terms => rw [lowerAll, lower_zero term, lowerAll_zero terms]

end

end Term

def FoldedStatement.lower (lines : Nat) (statement : FoldedStatement) : FoldedStatement :=
  ⟨statement.term.lower lines⟩

theorem FoldedStatement.map_lower_zero (statements : List FoldedStatement) :
    statements.map (FoldedStatement.lower 0) = statements := by
  rw [List.map_congr_left fun statement _ => by
    rw [FoldedStatement.lower, Term.lower_zero]]
  exact List.map_id statements

namespace Folding

private theorem value_lower (lines : Nat) (alone : Bool) (folded : Option Term) :
    (if alone = true then folded.map (Term.lower lines)
      else some ((folded.map (Term.lower lines)).getD (.expression []))) =
      (if alone = true then folded else some (folded.getD (.expression []))).map
        (Term.lower lines) := by
  cases alone <;> cases folded <;> rfl

/-- An index that gives a moved span its old position, so many lines further on. -/
def Lowers (f : Nat → Nat) (lines : Nat) (index other : LineIndex) : Prop :=
  ∀ span : Span, other.position (span.move f) = (index.position span).lower lines

section Terms

variable (lines : Nat) (terms : List Term)

private theorem collapse_lower :
    collapse (terms.map (Term.lower lines)) = (collapse terms).map (Term.lower lines) := by
  cases terms with
  | nil => rfl
  | cons first rest =>
    cases rest with
    | nil => rfl
    | cons second rest => simp [collapse, Term.lower]

private theorem firstInteger_lower : firstInteger (terms.map (Term.lower lines)) = firstInteger terms := by
  rw [firstInteger, List.findSome?_map, firstInteger]
  congr 1
  funext term
  cases term <;> rfl

private theorem applyCall_lower (arguments : List Term) :
    applyCall (arguments.map (Term.lower lines)) (terms.map (Term.lower lines)) =
      (applyCall arguments terms).map (Term.lower lines) := by
  cases terms with
  | nil => rfl
  | cons term rest => cases term <;> simp [applyCall, Term.lower]

private theorem applyIndex_lower (indices : List Term) :
    applyIndex (indices.map (Term.lower lines)) (terms.map (Term.lower lines)) =
      (applyIndex indices terms).map (Term.lower lines) := by
  cases terms with
  | nil => rfl
  | cons term rest => cases term <;> simp [applyIndex, Term.lower, firstInteger_lower]

private theorem signed_lower (operator : Option Syntax.TokenKind) (term : Term) (position : Position) :
    signed operator (term.lower lines) (position.lower lines) =
      (signed operator term position).map (Term.lower lines) := by
  unfold signed
  split
  · cases term <;> rfl
  · rfl
  · rfl

end Terms

private theorem stringValue_move (f : Nat → Nat) (tokens : List Ast.Leaf) :
    stringValue (tokens.map (Ast.Leaf.place (.move f))) = stringValue tokens := by
  have hstrings : (tokens.map (Ast.Leaf.place (.move f))).filter (fun leaf => leaf.kind = .quoted) =
      (tokens.filter fun leaf => leaf.kind = .quoted).map (Ast.Leaf.place (.move f)) := by
    rw [List.filter_map]
    rfl
  simp only [stringValue, hstrings, List.flatMap_map]
  rfl

section Moves

variable {f : Nat → Nat} {lines : Nat} {index other : LineIndex}

private theorem reference_move (h : Lowers f lines index other) (leaf : Ast.Leaf) :
    reference other (leaf.place (.move f)) = (reference index leaf).lower lines := by
  simp only [reference, Ast.Leaf.place, Ast.Placing.span_move, Term.lower, h leaf.span]

private theorem literal_move (h : Lowers f lines index other) (extent : Ast.Extent)
    (tokens : List Ast.Leaf) :
    literal other (extent.move f) (tokens.map (Ast.Leaf.place (.move f))) =
      (literal index extent tokens).map (Term.lower lines) := by
  cases tokens with
  | nil => rfl
  | cons leaf tokens =>
    have hstrings := stringValue_move f (leaf :: tokens)
    have hcore := h extent.core
    rw [← Ast.Extent.core_move] at hcore
    rw [List.map_cons] at hstrings ⊢
    simp only [literal, hstrings, hcore]
    simp only [Ast.Leaf.place, Ast.Placing.span_move, h leaf.span]
    split <;> simp [Term.lower, Function.comp_def]

mutual

private theorem expr_move (h : Lowers f lines index other) (expr : Ast.Expr) :
    Folding.expr other (expr.place (.move f)) = (Folding.expr index expr).map (Term.lower lines) := by
  cases expr with
  | name name =>
    obtain ⟨extent, ident⟩ := name
    cases ident with
    | none => rfl
    | some leaf => exact congrArg some (reference_move h leaf)
  | literal extent tokens => exact literal_move h extent tokens
  | dictionary extent items =>
    simp only [Ast.Expr.place, Folding.expr, Ast.Placing.extent_move, Ast.Extent.core_move,
      h extent.core]
    rfl
  | chain extent atom trailers =>
    cases atom with
    | none => rfl
    | some atom =>
      have hatom : (Folding.expr other (atom.place (.move f))).toList =
          (Folding.expr index atom).toList.map (Term.lower lines) := by
        rw [expr_move h atom, Option.toList_map]
      simp only [Ast.Expr.place, Ast.placeOptional, Folding.expr]
      rw [hatom, chain_move h, ← List.map_reverse, collapse_lower]
  | parenthesized extent inner => exact optional_move h inner
  | unary extent operator operand =>
    simp only [Ast.Expr.place, Folding.expr, Ast.Placing.extent_move, Ast.Extent.core_move,
      h extent.core]
    rw [optional_move h operand]
    cases Folding.optional index operand with
    | none => rfl
    | some term => exact signed_lower lines operator term _
  | binary extent operator left right =>
    simp only [Ast.Expr.place, Folding.expr]
    rw [operands_move h left, operands_move h right, ← List.map_append, collapse_lower]
  | list extent items =>
    simp only [Ast.Expr.place, Folding.expr, exprs_move h items, Option.map_some, Term.lower,
      Term.lowerAll_eq]
  | expressionList extent items =>
    simp only [Ast.Expr.place, Folding.expr, exprs_move h items, Option.map_some, Term.lower,
      Term.lowerAll_eq]
  | conditional extent parts => rfl
  | lambda extent parameters body => rfl
  | yield extent value => rfl
  | comprehension extent elements clauses bracket keyed => rfl

private theorem optional_move (h : Lowers f lines index other) (expr : Option Ast.Expr) :
    Folding.optional other (Ast.placeOptional (.move f) expr) =
      (Folding.optional index expr).map (Term.lower lines) := by
  cases expr with
  | none => rfl
  | some expr => exact expr_move h expr

private theorem exprs_move (h : Lowers f lines index other) (exprs : List Ast.Expr) :
    Folding.exprs other (Ast.placeExprs (.move f) exprs) =
      (Folding.exprs index exprs).map (Term.lower lines) := by
  cases exprs with
  | nil => rfl
  | cons expr rest =>
    rw [Ast.placeExprs, Folding.exprs, Folding.exprs, expr_move h expr, exprs_move h rest,
      List.map_append, Option.toList_map]

private theorem operands_move (h : Lowers f lines index other) (operand : Option Ast.Expr) :
    Folding.operands other (Ast.placeOptional (.move f) operand) =
      (Folding.operands index operand).map (Term.lower lines) := by
  cases operand with
  | none => rfl
  | some expr =>
    have hexpr := congrArg Option.toList (expr_move h expr)
    rw [Option.toList_map] at hexpr
    cases expr with
    | binary extent operator left right =>
      simp only [Ast.placeOptional, Ast.Expr.place, Folding.operands]
      rw [operands_move h left, operands_move h right, List.map_append]
    | _ => exact hexpr

private theorem chain_move (h : Lowers f lines index other) (terms : List Term)
    (trailers : List Ast.Trailer) :
    Folding.chain other (terms.map (Term.lower lines)) (Ast.placeTrailers (.move f) trailers) =
      (Folding.chain index terms trailers).map (Term.lower lines) := by
  cases trailers with
  | nil => rfl
  | cons trailer rest =>
    cases trailer with
    | «attribute» extent name =>
      have haccessed : ((name.map (Ast.Name.place (.move f))).bind Ast.Name.ident).toList.map
          (reference other) =
          ((name.bind Ast.Name.ident).toList.map (reference index)).map (Term.lower lines) := by
        cases name with
        | none => rfl
        | some name =>
          obtain ⟨nameExtent, ident⟩ := name
          cases ident with
          | none => rfl
          | some leaf => exact congrArg (fun term => [term]) (reference_move h leaf)
      simp only [Ast.placeTrailers, Ast.Trailer.place, Folding.chain]
      rw [haccessed, ← List.map_append, chain_move h _ rest]
    | arguments extent items =>
      simp only [Ast.placeTrailers, Ast.Trailer.place, Folding.chain]
      rw [arguments_move h items, applyCall_lower, chain_move h _ rest]
    | subscripts extent items =>
      simp only [Ast.placeTrailers, Ast.Trailer.place, Folding.chain]
      rw [subscripts_move h items, applyIndex_lower, chain_move h _ rest]

private theorem arguments_move (h : Lowers f lines index other) (items : List Ast.Argument) :
    Folding.arguments other (Ast.placeArguments (.move f) items) =
      (Folding.arguments index items).map (Term.lower lines) := by
  cases items with
  | nil => rfl
  | cons item rest =>
    obtain ⟨extent, keyword, unpacked, value⟩ := item
    simp only [Ast.placeArguments, Ast.Argument.place, Folding.arguments]
    rw [optional_move h value, arguments_move h rest, List.map_append, Option.toList_map]

private theorem subscripts_move (h : Lowers f lines index other) (items : List Ast.Subscript) :
    Folding.subscripts other (Ast.placeSubscripts (.move f) items) =
      (Folding.subscripts index items).map (Term.lower lines) := by
  cases items with
  | nil => rfl
  | cons item rest =>
    obtain ⟨extent, parts⟩ := item
    simp only [Ast.placeSubscripts, Ast.Subscript.place, Folding.subscripts]
    rw [exprs_move h parts, subscripts_move h rest, List.map_append]

end

private theorem assignment_move (h : Lowers f lines index other) (targets : List Ast.Expr) (value : Term) :
    assignment other (targets.map (Ast.Expr.place (.move f))) (value.lower lines) =
      (assignment index targets value).map (Term.lower lines) := by
  induction targets with
  | nil => rfl
  | cons target rest ih =>
    rw [List.map_cons, assignment, assignment, ih, expr_move h target]
    cases Folding.expr index target with
    | none => rfl
    | some target =>
      cases assignment index rest value with
      | none => rfl
      | some value => rfl

private theorem statement_move (h : Lowers f lines index other) (statement : Ast.Statement) :
    Folding.statement other (statement.place (.move f)) =
      (Folding.statement index statement).map (FoldedStatement.lower lines) := by
  cases statement with
  | expressionStatement extent exprs assigns augments hint =>
    cases augments with
    | true => rfl
    | false =>
      cases hlast : exprs.getLast? with
      | none => simp [Ast.Statement.place, Folding.statement, List.getLast?_map, hlast]
      | some value =>
        simp only [Ast.Statement.place, Folding.statement, Ast.placeExprs_eq, List.getLast?_map,
          hlast, Option.map_some, ← List.map_dropLast, List.isEmpty_map, expr_move h value,
          value_lower]
        generalize (if exprs.dropLast.isEmpty = true then Folding.expr index value
          else some ((Folding.expr index value).getD (.expression []))) = folded
        cases folded with
        | none => rfl
        | some term =>
          simp only [Option.map_some, Option.bind_some, assignment_move h, Option.map_map]
          rfl
  | _ => rfl

end Moves

/-- The folded statements among some parts of a script. -/
private def ofParts (index : LineIndex) (parts : List Ast.Part) : List FoldedStatement :=
  (parts.filterMap Ast.Part.statement?).filterMap (statement index)

private theorem ofText_eq (text : List Char) :
    ofText text = ofParts (.ofText text) (Ast.Part.ofTrees 0 (Syntax.parse text).tree.children) :=
  rfl

private theorem ofParts_move {f : Nat → Nat} {lines : Nat} {index other : LineIndex}
    (h : Lowers f lines index other) (parts : List Ast.Part) :
    ofParts other (parts.map (Ast.Part.place (.move f))) =
      (ofParts index parts).map (FoldedStatement.lower lines) := by
  rw [ofParts, Ast.Part.filterMap_place _ (Ast.Part.statement?_place _), List.filterMap_map, ofParts,
    List.map_filterMap]
  exact congrArg (List.filterMap · _) (funext (statement_move h))

private theorem ofParts_append (index : LineIndex) (parts others : List Ast.Part) :
    ofParts index (parts ++ others) = ofParts index parts ++ ofParts index others := by
  simp [ofParts]

end Folding

namespace Text

variable {text : List Char} (h : Closed text) (tail : List Char)
include h

private theorem Closed.lowers_tail :
    Folding.Lowers (byteLength text + ·) (text.count '\n') (.ofText tail)
      (.ofText (text ++ tail)) := by
  intro span
  have hpos := LineIndex.line_pos tail span.start
  simp only [LineIndex.position, Span.move, LineIndex.lineColumn_append h, Position.lower,
    Nat.add_left_cancel_iff, Position.mk.injEq, and_true]
  omega

private theorem Closed.lowers_text :
    Folding.Lowers (min · (byteLength text)) 0 (.ofText text) (.ofText (text ++ tail)) := by
  intro span
  simp only [LineIndex.position, Span.move, LineIndex.lineColumn_within h]
  rfl

end Text

namespace Syntax

theorem ClosesLine.closed {text : List Char} (h : ClosesLine text) : Text.Closed text := by
  by_cases hne : text = []
  · exact .inl hne
  · exact .inr (Lexeme.ends_feed h.lexemes hne)

/-- The children of the root hold the text. -/
theorem byteLength_children (text : List Char) :
    Tree.byteLengthAll (parse text).tree.children = Text.byteLength text := by
  have hleaves : Tree.leavesAll (parse text).tree.children = (Token.ofText text).map Token.entry :=
    leavesAll_parseTokens (Token.ofText text)
  rw [Tree.byteLengthAll_eq, hleaves, List.flatMap_map]
  exact congrArg Text.byteLength (Token.flatMap_text_ofText text)

/-- What follows a text that ends between two lines is parsed and folded as if it stood alone, whatever
errors are in the two texts: the tree of both has the parts of the two trees, and both fold to the folded
statements of the first one and then those of the second one, as many lines further on as the first one
has line feeds. -/
theorem parse_fold_append {text tail : List Char} (htext : ClosesLine text)
    (htail : BeginsLine tail) :
    (parse (text ++ tail)).tree.children =
        (parse text).tree.children ++ (parse tail).tree.children ∧
      Folding.ofText (text ++ tail) =
        Folding.ofText text ++
          (Folding.ofText tail).map (FoldedStatement.lower (text.count '\n')) := by
  have hchildren := children_append htext htail
  refine ⟨hchildren, ?_⟩
  have hlength := byteLength_children text
  have hfirst : Ast.Part.ofTrees 0 (parse text).tree.children =
      (Ast.Part.ofTrees 0 (parse text).tree.children).map
        (Ast.Part.place (.move (min · (Text.byteLength text)))) := by
    rw [← Ast.Part.ofTrees_move, Nat.zero_min]
    intro more hle
    rw [hlength] at hle
    simp only [Nat.zero_add, Nat.zero_min]
    exact Nat.min_eq_left hle
  have hsecond : Ast.Part.ofTrees (0 + Text.byteLength text) (parse tail).tree.children =
      (Ast.Part.ofTrees 0 (parse tail).tree.children).map
        (Ast.Part.place (.move (Text.byteLength text + ·))) := by
    rw [← Ast.Part.ofTrees_move, Nat.zero_add, Nat.add_zero]
    intro more _
    rw [Nat.zero_add, Nat.add_zero]
  rw [Folding.ofText_eq, hchildren, Ast.Part.ofTrees_append, hlength, hfirst, hsecond,
    Folding.ofParts_append, Folding.ofParts_move (htext.closed.lowers_text tail),
    Folding.ofParts_move (htext.closed.lowers_tail tail), FoldedStatement.map_lower_zero]
  rfl

/-- A script with a stray bracket in a block that has no handler, and another script. -/
theorem parse_fold_append_stray :
    ClosesLine "x = 1\ntry:\n  )\n".toList ∧ BeginsLine "y = 2".toList ∧
      (parse ("x = 1\ntry:\n  )\n".toList ++ "y = 2".toList)).tree.children =
        (parse "x = 1\ntry:\n  )\n".toList).tree.children ++ (parse "y = 2".toList).tree.children ∧
      Folding.ofText ("x = 1\ntry:\n  )\n".toList ++ "y = 2".toList) =
        Folding.ofText "x = 1\ntry:\n  )\n".toList ++
          (Folding.ofText "y = 2".toList).map (FoldedStatement.lower 3) := by
  have hlast : (Lexeme.ofText "x = 1\ntry:\n  )\n".toList).getLast? =
      some ⟨.lineBreak, ['\n']⟩ := by cbv
  have hhead : (Token.lineHeads true (Token.ofText "x = 1\ntry:\n  )\n".toList)).getLast? =
      some ⟨.symbol .rightParen, [')'], none⟩ := by cbv
  have hfirst : (Lexeme.ofText "y = 2".toList).head? = some ⟨.word, ['y']⟩ := by cbv
  have htext : ClosesLine "x = 1\ntry:\n  )\n".toList := by
    refine ⟨?_, by cbv, by cbv, ?_⟩
    · intro last hmem
      rw [hlast] at hmem
      obtain rfl := Option.some.inj hmem
      rfl
    · intro head hmem
      rw [hhead] at hmem
      obtain rfl := Option.some.inj hmem
      decide
  have htail : BeginsLine "y = 2".toList := by
    intro first hmem
    rw [hfirst] at hmem
    obtain rfl := Option.some.inj hmem
    exact ⟨by unfold Layout.Solid; decide, by decide⟩
  exact ⟨htext, htail, parse_fold_append htext htail⟩

end Syntax

end QuantumScript
