import Mathlib
import QuantumScript.Proofs.Parsing.Conforming
/-!
# Complete statements

A node promises its readers parts: an operator and two operands, a condition, a body. Whatever the source,
a simple statement that is no error node holds no error and keeps all promises, down to its last part. If
the source has no error at all then so does the whole tree.
-/

namespace QuantumScript

namespace Ast

open Syntax

/-- The part is a token of the kind. -/
def Part.isToken (kind : TokenKind) : Part → Bool
  | .leaf part => part.kind = kind
  | _ => false

/-- The statement has what its readers ask it for. Its parts tell of the marks in it. -/
def Statement.Promised (parts : List Part) : Statement → Prop
  | .expressionStatement _ exprs _ augments _ =>
    exprs.length = if augments then 2 else parts.countP (Part.isToken (.symbol .equals)) + 1
  | .importStatement _ aliases => aliases ≠ []
  | .fromImportStatement _ path aliases all => path.isSome ∧ (all ∨ aliases ≠ [])
  | .delStatement _ target => target.isSome
  | .assertStatement _ exprs => exprs ≠ []
  | .globalStatement _ names _ => names ≠ []
  | .function _ _ name parameters _ body =>
    name.isSome ∧ parameters.isSome ∧ Part.hasToken (.symbol .colon) parts ∧ body.isSome
  | .classDefinition _ _ name _ body =>
    name.isSome ∧ Part.hasToken (.symbol .colon) parts ∧ body.isSome
  | .ifStatement _ condition body _ _ | .whileStatement _ condition body _ =>
    condition.isSome ∧ Part.hasToken (.symbol .colon) parts ∧ body.isSome
  | .forStatement _ target iterable body _ =>
    target.isSome ∧ iterable.isSome ∧ Part.hasToken (.symbol .colon) parts ∧ body.isSome
  | .withStatement _ items body => items ≠ [] ∧ Part.hasToken (.symbol .colon) parts ∧ body.isSome
  | .tryStatement _ body handlers _ cleanup =>
    Part.hasToken (.symbol .colon) parts ∧ body.isSome ∧ (handlers ≠ [] ∨ cleanup.isSome)
  | _ => True

def Expr.Promised : Expr → Prop
  | .name n => n.ident.isSome
  | .chain _ atom trailers => atom.isSome ∧ trailers ≠ []
  | .binary _ operator left right => operator.isSome ∧ left.isSome ∧ right.isSome
  | .unary _ operator operand => operator.isSome ∧ operand.isSome
  | .conditional _ exprs => exprs.length = 3
  | .lambda _ parameters body => parameters.isSome ∧ body.isSome
  | .comprehension _ elements clauses _ _ => elements ≠ [] ∧ clauses ≠ []
  | .literal _ tokens => tokens ≠ []
  | .expressionList _ items => items ≠ []
  | _ => True

namespace Part

/-- What the parts of a node are read as has what its readers ask it for. -/
def Promised (parts : List Part) : Part → Prop
  | .expr part => part.Promised
  | .trailer (.attribute _ name) => name.isSome
  | .clause (.forClause _ target iterable) => target.isSome ∧ iterable.isSome
  | .clause (.ifClause _ condition) => condition.isSome
  | .argument part => part.value.isSome
  | .parameter part => part.name.isSome
  | .holder _ part => part.value.isSome
  | .dottedName part => part.names ≠ []
  | .importAlias part => part.path.isSome ∨ part.names ≠ []
  | .withItem part => part.value.isSome
  | .branch part => part.condition.isSome ∧ hasToken (.symbol .colon) parts ∧ part.body.isSome
  | .handler part => hasToken (.symbol .colon) parts ∧ part.body.isSome
  | .block _ part => hasToken (.symbol .colon) parts ∧ part.body.isSome
  | .statement part => part.Promised parts
  | _ => True

/-- What a part counts as among the parts of a node. -/
def piece? : Part → Option Piece
  | .leaf part => part.kind.piece?
  | .expr part => some part.kind.piece
  | .trailer part => some (.part part.kind)
  | .clause part => some (.part part.kind)
  | .argument _ => some (.part .argument)
  | .subscript _ => some (.part .subscript)
  | .parameters _ => some (.part .parameters)
  | .parameter _ => some (.part .parameter)
  | .holder kind _ =>
    some (if [.typeHint, .defaultValue, .returnType, .decorator].contains kind then .part kind else .stray)
  | .dottedName _ => some (.part .dottedName)
  | .importAlias _ => some (.part .importAlias)
  | .withItem _ => some (.part .withItem)
  | .suite _ => some (.part .suite)
  | .branch _ => some (.part .elifClause)
  | .handler _ => some (.part .exceptClause)
  | .block kind _ => some (if [.elseClause, .finallyClause].contains kind then .part kind else .stray)
  | .statement _ => some .statement
  | .script _ | .error _ => some .stray

private theorem piece?_ofTree (offset : Nat) (tree : Tree) : (ofTree offset tree).piece? = tree.piece? := by
  cases tree with
  | token kind text => rfl
  | node kind children => cases kind <;> rfl

theorem pieces_ofTrees (offset : Nat) (trees : List Tree) :
    (ofTrees offset trees).filterMap piece? = Tree.pieces trees := by
  induction trees generalizing offset with
  | nil => rfl
  | cons tree trees ih =>
    rw [ofTrees, List.filterMap_cons, piece?_ofTree, Tree.pieces, List.filterMap_cons, ih, Tree.pieces]

/-- Whether a part is what it counts as. -/
def fulfils (part : Part) : Piece → Bool
  | .word kind => part.isToken kind && part.significantLeaf?.isSome
  | .name => part.name?.isSome && part.expr?.isSome
  | .compound => part.expr?.isSome
  | .statement => part.statement?.isSome
  | .part .arguments | .part .subscripts | .part .attribute => part.trailer?.isSome
  | .part .forClause | .part .ifClause => part.clause?.isSome
  | .part .parameters => part.parameters?.isSome
  | .part .dottedName => part.dottedName?.isSome
  | .part .importAlias => part.importAlias?.isSome
  | .part .withItem => part.withItem?.isSome
  | .part .suite => part.suite?.isSome
  | .part .exceptClause => part.handler?.isSome
  | .part .finallyClause => (part.block? .finallyClause).isSome
  | _ => true

theorem fulfils_piece {part : Part} {piece : Piece} (h : part.piece? = some piece) :
    part.fulfils piece = true := by
  cases part with
  | leaf part =>
    rw [piece?, TokenKind.piece?] at h
    split at h
    · cases h
    · cases h
      simp_all [fulfils, isToken, significantLeaf?]
  | expr part => cases part <;> cases h <;> rfl
  | trailer part => cases part <;> cases h <;> rfl
  | clause part => cases part <;> cases h <;> rfl
  | holder kind part => cases kind <;> cases h <;> rfl
  | block kind part => cases kind <;> cases h <;> rfl
  | _ => cases h; rfl

section Counts

variable {parts : List Part} {shape : Shape}

private theorem countP_pieces {q : Part → Bool} {p : Piece → Bool}
    (h : ∀ part : Part, q part = part.piece?.any p) (parts : List Part) :
    parts.countP q = (parts.filterMap piece?).countP p := by
  induction parts with
  | nil => rfl
  | cons part parts ih =>
    rw [List.countP_cons, ih, h, List.filterMap_cons]
    cases part.piece? with
    | none => rfl
    | some piece => rw [List.countP_cons]; rfl

private theorem exists_part (hfits : shape.Fits (parts.filterMap piece?)) {p : Piece → Bool}
    (hleast : 0 < shape.least p) :
    ∃ part ∈ parts, ∃ piece, p piece = true ∧ part.fulfils piece = true := by
  obtain ⟨piece, hmem, hp⟩ := hfits.exists_mem hleast
  obtain ⟨part, hpart, hpiece⟩ := List.mem_filterMap.mp hmem
  exact ⟨part, hpart, piece, hp, fulfils_piece hpiece⟩

private theorem exists_of_piece (hfits : shape.Fits (parts.filterMap piece?)) (piece : Piece)
    (hleast : 0 < shape.least (· == piece)) : ∃ part ∈ parts, part.fulfils piece = true := by
  obtain ⟨part, hpart, other, hsame, hfulfils⟩ := exists_part hfits hleast
  exact ⟨part, hpart, beq_iff_eq.mp hsame ▸ hfulfils⟩

private theorem filterMap_ne_nil {α : Type} {f : Part → Option α} {part : Part} (hmem : part ∈ parts)
    (hsome : (f part).isSome = true) : parts.filterMap f ≠ [] := by
  intro hnil
  rw [List.filterMap_eq_nil_iff.mp hnil part hmem] at hsome
  cases hsome

private theorem findSome?_isSome {α : Type} {f : Part → Option α} {part : Part} (hmem : part ∈ parts)
    (hsome : (f part).isSome = true) : (parts.findSome? f).isSome = true := by
  rw [← List.head?_filterMap, List.isSome_head?]
  exact filterMap_ne_nil hmem hsome

private theorem hasToken_of_least (hfits : shape.Fits (parts.filterMap piece?)) {kind : TokenKind}
    (hleast : 0 < shape.least (· == .word kind)) : hasToken kind parts = true := by
  obtain ⟨part, hmem, hfulfils⟩ := exists_of_piece hfits (.word kind) hleast
  exact List.any_eq_true.mpr ⟨part, hmem, (Bool.and_eq_true _ _ ▸ hfulfils).1⟩

private theorem part_ne_nil {α : Type} (hfits : shape.Fits (parts.filterMap piece?))
    (f : Part → Option α) (kind : NodeKind) (hleast : 0 < shape.least (· == .part kind))
    (hf : ∀ part : Part, part.fulfils (.part kind) = true → (f part).isSome = true) :
    parts.filterMap f ≠ [] := by
  obtain ⟨part, hmem, hfulfils⟩ := exists_of_piece hfits (.part kind) hleast
  exact filterMap_ne_nil hmem (hf part hfulfils)

private theorem part_isSome {α : Type} (hfits : shape.Fits (parts.filterMap piece?))
    (f : Part → Option α) (kind : NodeKind) (hleast : 0 < shape.least (· == .part kind))
    (hf : ∀ part : Part, part.fulfils (.part kind) = true → (f part).isSome = true) :
    (parts.findSome? f).isSome = true := by
  obtain ⟨part, hmem, hfulfils⟩ := exists_of_piece hfits (.part kind) hleast
  exact findSome?_isSome hmem (hf part hfulfils)

private theorem suite_isSome (hfits : shape.Fits (parts.filterMap piece?))
    (hleast : 0 < shape.least (· == .part .suite)) : (parts.findSome? suite?).isSome = true :=
  part_isSome hfits suite? .suite hleast fun _ => id

private theorem names_ne_nil (hfits : shape.Fits (parts.filterMap piece?))
    (hleast : 0 < shape.least (· == .name)) : parts.filterMap name? ≠ [] := by
  obtain ⟨part, hmem, hfulfils⟩ := exists_of_piece hfits .name hleast
  exact filterMap_ne_nil hmem (Bool.and_eq_true _ _ ▸ hfulfils).1

private theorem name_isSome (hfits : shape.Fits (parts.filterMap piece?))
    (hleast : 0 < shape.least (· == .name)) : (parts.filterMap name?).head?.isSome = true :=
  List.isSome_head?.mpr (names_ne_nil hfits hleast)

private theorem exists_leaf (hfits : shape.Fits (parts.filterMap piece?))
    (hleast : 0 < shape.least fun piece => piece matches .word _) :
    ∃ part ∈ parts, part.significantLeaf?.isSome = true := by
  obtain ⟨part, hmem, piece, hword, hfulfils⟩ := exists_part hfits hleast
  cases piece with
  | word kind => exact ⟨part, hmem, (Bool.and_eq_true _ _ ▸ hfulfils).2⟩
  | _ => cases hword

private theorem operator_isSome (hfits : shape.Fits (parts.filterMap piece?))
    (hleast : 0 < shape.least fun piece => piece matches .word _) :
    (operator? parts).isSome = true := by
  obtain ⟨part, hmem, hleaf⟩ := exists_leaf hfits hleast
  rw [operator?, Option.isSome_map]
  exact findSome?_isSome hmem hleaf

/-- The piece of an expression. -/
def isExpr (piece : Piece) : Bool := [.name, .compound].contains piece

private theorem isSome_expr? (part : Part) : part.expr?.isSome = part.piece?.any isExpr := by
  cases part with
  | leaf part =>
    rw [piece?, TokenKind.piece?]
    split <;> rfl
  | expr part => cases part <;> rfl
  | trailer part => cases part <;> rfl
  | clause part => cases part <;> rfl
  | holder kind part => cases kind <;> rfl
  | block kind part => cases kind <;> rfl
  | _ => rfl

private theorem length_exprs (parts : List Part) :
    (parts.filterMap expr?).length = (parts.filterMap piece?).countP isExpr := by
  rw [List.length_filterMap_eq_countP]
  exact countP_pieces isSome_expr? parts

private theorem first_isSome (hfits : shape.Fits (parts.filterMap piece?))
    (hleast : 0 < shape.least isExpr) : (parts.filterMap expr?).head?.isSome = true := by
  have hle := hfits.least_le isExpr
  rw [← length_exprs] at hle
  rw [List.isSome_head?, ← List.length_pos_iff]
  omega

private theorem second_isSome (hfits : shape.Fits (parts.filterMap piece?))
    (hleast : 1 < shape.least isExpr) : (parts.filterMap expr?)[1]?.isSome = true := by
  have hle := hfits.least_le isExpr
  rw [← length_exprs] at hle
  rw [List.getElem?_eq_getElem (by omega)]
  rfl

private theorem isToken_eq {kind : TokenKind} (hkind : kind.piece? = some (.word kind)) (part : Part) :
    part.isToken kind = part.piece?.any (· == .word kind) := by
  cases part with
  | leaf part =>
    rw [isToken, piece?]
    by_cases hsame : part.kind = kind
    · rw [hsame, hkind]
      simp
    · rw [TokenKind.piece?]
      split <;> simp [hsame]
  | expr part => cases part <;> rfl
  | trailer part => cases part <;> rfl
  | clause part => cases part <;> rfl
  | holder other part => cases other <;> rfl
  | block other part => cases other <;> rfl
  | _ => rfl

/-- The values of an assignment: one more than there are marks, or two around the mark of an augmented
one. -/
private theorem length_assignment (hfits : (Shape.ofKind .expressionStatement).Fits (parts.filterMap piece?)) :
    (parts.filterMap expr?).length =
      if hasToken (.symbol .augmented) parts then 2
      else parts.countP (isToken (.symbol .equals)) + 1 := by
  have hany : hasToken (.symbol .augmented) parts = true ↔
      0 < (parts.filterMap piece?).countP (· == .word (.symbol .augmented)) := by
    rw [← countP_pieces (isToken_eq rfl), List.countP_pos_iff]
    exact List.any_eq_true
  rw [length_exprs, countP_pieces (isToken_eq rfl)]
  obtain ⟨first, others, hpieces, hfirst, hint, values, rfl, hhint, hvalues⟩ := hfits
  rcases hvalues with haugmented | hchain
  · have hform : (Shape.steps [.expr, .optional (.part .typeHint),
        .seq (.word (.symbol .augmented)) .expr]).Fits (parts.filterMap piece?) :=
      ⟨first, _, hpieces, hfirst, hint, values, rfl, hhint, haugmented⟩
    have hexprs := hform.countP_eq (p := isExpr) (q := fun _ => false) rfl
    have hmark := hform.least_le (· == .word (.symbol .augmented))
    rw [if_pos (hany.mpr hmark)]
    rw [List.countP_false] at hexprs
    exact Int.ofNat.inj hexprs
  · have hform : (Shape.steps [.expr, .optional (.part .typeHint),
        .many (.seq (.word (.symbol .equals)) .expr)]).Fits (parts.filterMap piece?) :=
      ⟨first, _, hpieces, hfirst, hint, values, rfl, hhint, hchain⟩
    have hexprs := hform.countP_eq (p := isExpr) (q := (· == .word (.symbol .equals))) rfl
    have hnone : ¬0 < (parts.filterMap piece?).countP (· == .word (.symbol .augmented)) := by
      intro hpos
      obtain ⟨piece, hmem, hsame⟩ := List.countP_pos_iff.mp hpos
      obtain rfl := beq_iff_eq.mp hsame
      exact absurd (hform.mem_pieces _ hmem) (by decide)
    rw [if_neg fun h => hnone (hany.mp h)]
    omega

end Counts

/-- A node whose children make its shape keeps its promises. -/
theorem promised_of_fits {kind : NodeKind} {children : List Tree} (offset : Nat)
    (hfits : (Shape.ofKind kind).Fits (Tree.pieces children)) :
    Promised (ofTrees offset children) (ofTree offset (.node kind children)) := by
  rw [← pieces_ofTrees offset] at hfits
  rw [ofTree]
  generalize ofTrees offset children = parts at hfits
  cases kind with
  | expressionStatement => exact length_assignment hfits
  | importStatement =>
    exact part_ne_nil hfits importAlias? .importAlias (by decide) fun _ => id
  | fromImportStatement =>
    refine ⟨part_isSome hfits dottedName? .dottedName (by decide) fun _ => id, ?_⟩
    obtain ⟨part, hmem, piece, hp, hfulfils⟩ := exists_part hfits
      (p := [.word (.symbol .star), .part .importAlias].contains) (by decide)
    rcases List.mem_cons.mp (List.contains_iff_mem.mp hp) with rfl | hp
    · exact .inl (List.any_eq_true.mpr ⟨part, hmem, (Bool.and_eq_true _ _ ▸ hfulfils).1⟩)
    · obtain rfl := List.mem_singleton.mp hp
      exact .inr (filterMap_ne_nil hmem hfulfils)
  | delStatement | typeHint | defaultValue | returnType | decorator | ifClause | withItem =>
    exact first_isSome hfits (by decide)
  | assertStatement | expressionList => exact List.isSome_head?.mp (first_isSome hfits (by decide))
  | globalStatement | dottedName => exact names_ne_nil hfits (by decide)
  | function =>
    have hparameters := part_isSome hfits parameters? .parameters (by decide) fun _ => id
    exact ⟨name_isSome hfits (by decide), hparameters, hasToken_of_least hfits (by decide),
      suite_isSome hfits (by decide)⟩
  | classDefinition =>
    exact ⟨name_isSome hfits (by decide), hasToken_of_least hfits (by decide),
      suite_isSome hfits (by decide)⟩
  | ifStatement | whileStatement | elifClause =>
    exact ⟨first_isSome hfits (by decide), hasToken_of_least hfits (by decide),
      suite_isSome hfits (by decide)⟩
  | forStatement =>
    exact ⟨first_isSome hfits (by decide), second_isSome hfits (by decide),
      hasToken_of_least hfits (by decide), suite_isSome hfits (by decide)⟩
  | withStatement =>
    exact ⟨part_ne_nil hfits withItem? .withItem (by decide) fun _ => id,
      hasToken_of_least hfits (by decide), suite_isSome hfits (by decide)⟩
  | tryStatement =>
    refine ⟨hasToken_of_least hfits (by decide), suite_isSome hfits (by decide), ?_⟩
    obtain ⟨part, hmem, piece, hp, hfulfils⟩ := exists_part hfits
      (p := [.part .exceptClause, .part .finallyClause].contains) (by decide)
    rcases List.mem_cons.mp (List.contains_iff_mem.mp hp) with rfl | hp
    · exact .inl (filterMap_ne_nil hmem hfulfils)
    · obtain rfl := List.mem_singleton.mp hp
      exact .inr (findSome?_isSome hmem hfulfils)
  | exceptClause | elseClause | finallyClause =>
    exact ⟨hasToken_of_least hfits (by decide), suite_isSome hfits (by decide)⟩
  | parameter | «attribute» => exact name_isSome hfits (by decide)
  | importAlias =>
    obtain ⟨part, hmem, piece, hp, hfulfils⟩ := exists_part hfits
      (p := [.part .dottedName, .name].contains) (by decide)
    rcases List.mem_cons.mp (List.contains_iff_mem.mp hp) with rfl | hp
    · exact .inl (findSome?_isSome hmem hfulfils)
    · obtain rfl := List.mem_singleton.mp hp
      exact .inr (filterMap_ne_nil hmem (Bool.and_eq_true _ _ ▸ hfulfils).1)
  | forClause => exact ⟨first_isSome hfits (by decide), second_isSome hfits (by decide)⟩
  | argument =>
    have hexprs := List.isSome_head?.mp (first_isSome hfits (by decide))
    exact Option.isSome_iff_exists.mpr ⟨_, List.getLast?_eq_some_getLast hexprs⟩
  | name =>
    obtain ⟨part, hmem, hfulfils⟩ := exists_of_piece hfits (.word .name) (by decide)
    obtain ⟨hname, hleaf⟩ := Bool.and_eq_true _ _ ▸ hfulfils
    cases part with
    | leaf part =>
      obtain ⟨leaf, hsome⟩ := Option.isSome_iff_exists.mp hleaf
      refine List.find?_isSome.mpr ⟨leaf, List.mem_filterMap.mpr ⟨_, hmem, hsome⟩, ?_⟩
      rw [significantLeaf?] at hsome
      split at hsome <;> cases hsome
      exact hname
    | _ => cases hname
  | chain =>
    refine ⟨first_isSome hfits (by decide), ?_⟩
    obtain ⟨part, hmem, piece, hp, hfulfils⟩ := exists_part hfits
      (p := [.part .arguments, .part .subscripts, .part .attribute].contains) (by decide)
    refine filterMap_ne_nil (f := trailer?) hmem ?_
    have hpiece := List.contains_iff_mem.mp hp
    simp only [List.mem_cons, List.not_mem_nil, or_false] at hpiece
    rcases hpiece with rfl | rfl | rfl <;> exact hfulfils
  | binary =>
    exact ⟨operator_isSome hfits (by decide), first_isSome hfits (by decide),
      second_isSome hfits (by decide)⟩
  | unary => exact ⟨operator_isSome hfits (by decide), first_isSome hfits (by decide)⟩
  | conditional =>
    have hcount := hfits.countP_eq (q := fun _ => false) (p := isExpr) rfl
    rw [← length_exprs, List.countP_false] at hcount
    exact Int.ofNat.inj hcount
  | lambda =>
    exact ⟨part_isSome hfits parameters? .parameters (by decide) fun _ => id,
      first_isSome hfits (by decide)⟩
  | comprehension =>
    exact ⟨List.isSome_head?.mp (first_isSome hfits (by decide)),
      part_ne_nil hfits clause? .forClause (by decide) fun _ => id⟩
  | literal =>
    obtain ⟨part, hmem, hleaf⟩ := exists_leaf hfits (by decide)
    exact filterMap_ne_nil hmem hleaf
  | _ => trivial

end Part

end Ast

namespace Syntax

namespace Tree

open Ast

/-- The tree holds no error, and every node in it keeps its promises, wherever it stands. -/
def Whole : Tree → Prop := Each fun kind children =>
  kind ≠ .error ∧ (∀ text, .token .unknown text ∉ children) ∧
    ∀ offset, Part.Promised (Part.ofTrees offset children) (Part.ofTree offset (.node kind children))

/-- All simple statements in the tree have the property. -/
def EachSimple (P : Tree → Prop) : Tree → Prop :=
  Each fun kind children => kind.isSimple = true → P (.node kind children)

private theorem unknown_not_mem (kind : NodeKind) : .word .unknown ∉ (Shape.ofKind kind).pieces := by
  cases kind <;> decide

theorem Formed.whole {tree : Tree} (h : tree.Formed) : tree.Whole := by
  refine h.imp fun kind children hfits => ⟨?_, fun text hmem => ?_, fun offset => ?_⟩
  · rintro rfl
    obtain ⟨piece, hmem, -⟩ := hfits
    cases hmem
  · exact unknown_not_mem kind (hfits.mem_pieces _ (mem_pieces.mpr ⟨_, hmem, rfl⟩))
  · exact Part.promised_of_fits offset hfits

end Tree

namespace Script

variable {Rule : Type} {grammar : Rule → Script Rule} {makes : Rule → Product}

/-- Simple statements are made as such, and their bodies make their shapes if no error is booked. -/
def settles (makes : Rule → Product) : Script Rule → Kinds → Bool
  | .seq first second, known => settles makes first known && settles makes second (.except [])
  | .cond test yes no, known =>
    settles makes test known && settles makes yes (test.tested known true) &&
      settles makes no (test.tested known false)
  | .node (.always kind) body, known | .node (.unlessComprehension kind) body, known
  | .wrap kind body, known => !kind.isSimple && settles makes body known
  | .node .definition body, known => settles makes body known
  | .statement kind body, known =>
    bears.fills makes body known (.ofKind kind) && settles makes body known
  | .loop body, _ => settles makes body (.except [])
  | _, _ => true

private theorem settles_node {label : Label} {body : Script Rule} {known : Kinds}
    (h : settles makes (.node label body) known = true) (children : List Tree) :
    (label.resolve children).isSimple = false ∧ settles makes body known = true := by
  cases label with
  | always kind =>
    rw [settles, Bool.and_eq_true, Bool.not_eq_true'] at h
    exact h
  | unlessComprehension kind =>
    rw [settles, Bool.and_eq_true, Bool.not_eq_true'] at h
    refine ⟨?_, h.2⟩
    rw [Label.resolve]
    split
    · rfl
    · exact h.1
  | definition =>
    refine ⟨?_, h⟩
    rw [Label.resolve]
    repeat' split
    all_goals rfl

private theorem formed_statement (hmakers : Makers grammar makes) {kind : NodeKind} {body : Script Rule}
    {sketch mid : Sketch} {ignored : Bool} {known : Kinds}
    (hbody : Reads grammar body { sketch with parts := [] } ignored mid)
    (hallows : known.allows sketch.current = true)
    (hfills : bears.fills makes body known (.ofKind kind) = true)
    (hclean : (mid.finishStatement sketch.problems.length).problems.length ≤ sketch.problems.length) :
    Tree.Formed (.node kind (mid.finishStatement sketch.problems.length).parts.reverse) := by
  obtain ⟨taken, htakes⟩ := hbody.takes
  obtain ⟨more, hmore, hstays⟩ := Sketch.Takes.finishStatement mid sketch.problems.length
  have hlength := Nat.le_antisymm hclean (htakes.trans hmore).length_problems
  obtain ⟨hearly, -⟩ := htakes.problems_split hmore hlength
  rw [hstays hlength]
  obtain ⟨stage, hstage, -, hmeets⟩ := (hbody.told hmakers).surveyed ⟨true, known, ⟨[.ofKind kind], none⟩⟩
    [.ofKind kind] [] ⟨hallows, Tally.tells_start _ _⟩ hearly
  rw [bears.fills, Kinds.isNone_of_allows hallows, Bool.false_or] at hfills
  obtain ⟨hformed, hfits⟩ := hmeets.tally.fits (List.all_eq_true.mp hfills stage hstage)
  exact .node (by simpa using hfits) hformed

private theorem Reads.settles (hmakers : Makers grammar makes)
    (hrules : ∀ rule, (grammar rule).settles makes (.except []) = true) {script : Script Rule}
    {sketch after : Sketch} {answer : Bool} (h : Reads grammar script sketch answer after) {known : Kinds}
    (hallows : known.allows sketch.current = true) (hsettles : script.settles makes known = true)
    (hparts : ∀ tree ∈ sketch.parts, tree.EachSimple Tree.Formed) :
    ∀ tree ∈ after.parts, tree.EachSimple Tree.Formed := by
  induction h generalizing known with
  | answer | demand | report | ask => exact hparts
  | bump | advance => exact Sketch.each_take hparts
  | call _ ih => exact ih (Kinds.allows_all _) (hrules _) hparts
  | seq _ _ ihfirst ihsecond =>
    rw [Script.settles, Bool.and_eq_true] at hsettles
    exact ihsecond (Kinds.allows_all _) hsettles.2 (ihfirst hallows hsettles.1 hparts)
  | yes htest _ ihtest ihyes =>
    rw [Script.settles, Bool.and_eq_true, Bool.and_eq_true] at hsettles
    exact ihyes (htest.tested hallows) hsettles.1.2 (ihtest hallows hsettles.1.1 hparts)
  | no htest _ ihtest ihno =>
    rw [Script.settles, Bool.and_eq_true, Bool.and_eq_true] at hsettles
    exact ihno (htest.tested hallows) hsettles.2 (ihtest hallows hsettles.1.1 hparts)
  | node _ ih =>
    refine List.forall_mem_cons.mpr ⟨.node ?_ fun tree hmem => ?_, hparts⟩
    · intro hsimple
      rw [(settles_node hsettles _).1] at hsimple
      cases hsimple
    · exact ih hallows (settles_node hsettles []).2 nofun tree (List.mem_reverse.mp hmem)
  | wrap _ ih =>
    rw [Script.settles, Bool.and_eq_true, Bool.not_eq_true'] at hsettles
    obtain ⟨hpart, hothers⟩ := List.forall_mem_cons.mp hparts
    refine List.forall_mem_cons.mpr ⟨.node ?_ fun tree hmem => ?_, hothers⟩
    · intro hsimple
      rw [hsettles.1] at hsimple
      cases hsimple
    · exact ih hallows hsettles.2 (List.forall_mem_singleton.mpr hpart) tree (List.mem_reverse.mp hmem)
  | statement hbody hafter ih =>
    subst hafter
    rw [Script.settles, Bool.and_eq_true] at hsettles
    refine List.forall_mem_cons.mpr ⟨.node ?_ fun tree hmem => ?_, hparts⟩
    · intro hsimple
      split at hsimple
      · cases hsimple
      · rename_i hclean
        rw [if_neg hclean]
        exact formed_statement hmakers hbody hallows hsettles.1 (Nat.not_lt.mp hclean)
    · exact Sketch.each_finishStatement _ (ih hallows hsettles.2 nofun) tree (List.mem_reverse.mp hmem)
  | stop _ ih => exact ih (Kinds.allows_all _) hsettles hparts
  | round _ _ _ ihbody ihloop =>
    exact ihloop (Kinds.allows_all _) hsettles (ihbody (Kinds.allows_all _) hsettles hparts)

end Script

private theorem Rule.settles_grammar (rule : Rule) : (grammar rule).settles makes (.except []) = true := by
  cases rule <;> decide

/-- Whatever the source, the simple statements that are no error nodes have their shapes. -/
theorem parse_settled (source : List Char) : (parse source).tree.EachSimple Tree.Formed := by
  obtain ⟨sketch, hread, hbare, -⟩ := parse_read source
  have hsketch := (Script.reads_of_read hread).settles Rule.makers_grammar Rule.settles_grammar
    (Kinds.allows_all _) (by decide) nofun
  have hblind (kind : NodeKind) (children : List Tree)
      (h : Tree.Formed (.node kind (Tree.bareAll children))) : Tree.Formed (.node kind children) :=
    Tree.formed_of_bare (by rw [Tree.bare]; exact h)
  apply Tree.each_of_bare
  · exact fun kind children h hsimple => hblind kind children (h hsimple)
  rw [hbare]
  exact .node nofun fun tree hmem => hsketch tree (List.mem_reverse.mp hmem)

/-- Whatever the source, a simple statement that is no error node holds no error and keeps its promises
down to its last part. If the source has no error then this is so for the whole tree. -/
theorem parse_complete (source : List Char) :
    (parse source).tree.EachSimple Tree.Whole ∧
      ((parse source).errors = [] → (parse source).tree.Whole) := by
  refine ⟨?_, fun h => (parse_formed h).whole⟩
  exact (parse_settled source).imp fun kind children h hsimple => (h hsimple).whole

/-- A loop with an augmented assignment. -/
theorem parse_complete_loop :
    (parse "while n: n -= 1".toList).errors = [] ∧ (parse "while n: n -= 1".toList).tree.Whole := by
  have herrors : (parse "while n: n -= 1".toList).errors = [] := by cbv
  exact ⟨herrors, (parse_complete _).2 herrors⟩

end Syntax

end QuantumScript
