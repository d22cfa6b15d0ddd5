import QuantumScript.Proofs.Locating.Columns
import QuantumScript.Proofs.Walking.Occurrences
/-!
# Places of parts

Something can be reported at a name, at an argument of a call and at a hint. Each of them starts with a
token that stands in the source as it is and is not empty, and ends with a token, so it has a place that
can be shown.
-/

namespace QuantumScript

open Text (Boundary byteLength)

namespace Ast

open Syntax

/-- The token is what stands in the text at its span, and it is not empty. -/
structure Leaf.Stands (text : List Char) (leaf : Leaf) : Prop where
  slice : Text.slice? leaf.span.start leaf.span.stop text = some leaf.text.toList
  start : Boundary text leaf.span.start
  stop : Boundary text leaf.span.stop
  nonempty : leaf.span.start < leaf.span.stop

/-- The part starts with a token that stands in the text, and ends no earlier, between two characters. -/
def Extent.Clear (text : List Char) (extent : Extent) : Prop :=
  ∃ leaf, extent.first = some leaf ∧ leaf.Stands text ∧ leaf.span.stop ≤ extent.last ∧
    Boundary text extent.last

theorem Extent.Clear.shows {text : List Char} {extent : Extent} (h : extent.Clear text) :
    Text.Shows text extent.core ((Text.LineIndex.ofText text).position extent.core) := by
  obtain ⟨leaf, hfirst, hleaf, hle, hlast⟩ := h
  have hcore : extent.core = ⟨leaf.span.start, extent.last⟩ := by rw [core, hfirst]
  rw [hcore]
  exact Text.LineIndex.shows_position hleaf.start hlast (Nat.lt_of_lt_of_le hleaf.nonempty hle)

namespace Part

private theorem clear_extentOf {text : List Char} {start : Nat} {parts : List Part}
    (hpairwise : parts.Pairwise fun part other => part.extent.last ≤ other.extent.last)
    (h : ∀ part ∈ parts, part.extent.first.isSome = true → part.extent.Clear text)
    (hseen : (extentOf start parts).first.isSome = true) : (extentOf start parts).Clear text := by
  have hclear {part : Part} (hmem : part ∈ parts.filter fun part => part.extent.first.isSome) :
      part ∈ parts ∧ part.extent.first.isSome = true ∧ part.extent.Clear text := by
    obtain ⟨hmem, hsome⟩ := List.mem_filter.mp hmem
    exact ⟨hmem, hsome, h part hmem hsome⟩
  change (Option.bind (parts.filter fun part => part.extent.first.isSome).head? _).isSome = true at hseen
  cases hhead : (parts.filter fun part => part.extent.first.isSome).head? with
  | none =>
    rw [hhead] at hseen
    cases hseen
  | some first =>
    obtain ⟨hmem, hsome, leaf, hleaf, hstands, hle, _⟩ := hclear (List.mem_of_mem_head? hhead)
    have hfirst : (extentOf start parts).first = some leaf := by
      change Option.bind (parts.filter fun part => part.extent.first.isSome).head? _ = _
      rw [hhead]
      exact hleaf
    have hlast := (@extentOf_of_mem start parts hpairwise first hmem hsome).2
    refine ⟨leaf, hfirst, hstands, Nat.le_trans hle hlast, ?_⟩
    obtain ⟨last, hgetLast⟩ := Option.isSome_iff_exists.mp
      (List.getLast?_isSome.mpr (List.ne_nil_of_mem (List.mem_of_mem_head? hhead)))
    obtain ⟨_, _, _, _, _, _, hboundary⟩ := hclear (List.mem_of_getLast? hgetLast)
    change Boundary text (Option.getD (Option.map _ _) _)
    rw [hgetLast]
    exact hboundary

/-- Every leaf of the trees but those of the layout has a text. -/
def Inked (leaves : List (TokenKind × List Char)) : Prop :=
  ∀ leaf ∈ leaves, isLayout leaf.1 = false → leaf.2 ≠ []

private theorem stands_leaf (kind : TokenKind) {own : List Char} (before after : List Char) (hown : own ≠ []) :
    Leaf.Stands (before ++ (own ++ after))
      ⟨kind, String.ofList own, ⟨byteLength before, byteLength before + byteLength own⟩⟩ := by
  refine ⟨?_, ⟨before, own ++ after, rfl, rfl⟩, ⟨before ++ own, after, ?_, ?_⟩, ?_⟩
  · rw [String.toList_ofList]
    exact Text.slice?_append before own after
  · exact (List.append_assoc before own after).symm
  · exact Text.byteLength_append before own
  · cases own with
    | nil => exact absurd rfl hown
    | cons c cs =>
      have := c.utf8Size_pos
      simp only [Text.byteLength_cons]
      omega

mutual

private theorem clear_ofTree {text : List Char} (before after : List Char) (tree : Tree)
    (htext : text = before ++ (tree.text ++ after)) (hinked : Inked tree.leaves)
    (hseen : (ofTree (byteLength before) tree).extent.first.isSome = true) :
    (ofTree (byteLength before) tree).extent.Clear text := by
  match tree with
  | .token kind own =>
    have hown : Tree.text (.token kind own) = own := by simp [Tree.text, Tree.leaves]
    rw [hown] at htext
    cases hlayout : isLayout kind with
    | true => simp [ofTree, extent, leafExtent, hlayout] at hseen
    | false =>
      have hstands := stands_leaf kind before after
        (hinked (kind, own) (List.mem_singleton_self _) hlayout)
      rw [← htext] at hstands
      refine ⟨_, ?_, hstands, Nat.le_refl _, hstands.stop⟩
      simp [ofTree, extent, leafExtent, hlayout]
  | .node kind children =>
    rw [ofTree, extent_assemble] at hseen ⊢
    exact clear_extentOf (pairwise_ofTrees _ children)
      (clear_ofTrees before after children htext hinked) hseen

theorem clear_ofTrees {text : List Char} (before after : List Char) (trees : List Tree)
    (htext : text = before ++ ((Tree.leavesAll trees).flatMap Prod.snd ++ after))
    (hinked : Inked (Tree.leavesAll trees)) :
    ∀ part ∈ ofTrees (byteLength before) trees, part.extent.first.isSome = true →
      part.extent.Clear text := by
  match trees with
  | [] =>
    intro part hmem
    rw [ofTrees] at hmem
    cases hmem
  | tree :: trees =>
    obtain ⟨htree, htrees⟩ := List.forall_mem_append.mp hinked
    rw [Tree.leavesAll, List.flatMap_append] at htext
    rw [ofTrees_cons, Tree.byteLength_eq, ← Text.byteLength_append]
    refine List.forall_mem_cons.mpr ⟨?_, ?_⟩
    · refine clear_ofTree before ((Tree.leavesAll trees).flatMap Prod.snd ++ after) tree ?_ htree
      rw [htext, List.append_assoc]
      rfl
    · refine clear_ofTrees (before ++ tree.text) after trees ?_ htrees
      rw [htext, List.append_assoc, List.append_assoc]
      rfl

end

end Part

section Marked

variable (mark : Extent → Prop)

/-- The name is marked if it can be shown. -/
def Name.Marked (name : Name) : Prop :=
  mark name.extent ∧ ∀ leaf ∈ name.ident, mark (Part.leafExtent leaf)

mutual

/-- All names and arguments in the expression are marked, and all parts of it that can name a type. -/
def Expr.Marked : Expr → Prop
  | .name part => part.Marked mark
  | .literal extent _ => mark extent
  | .chain extent atom trailers => mark extent ∧ MarkedOptional atom ∧ MarkedTrailers trailers
  | .binary _ _ left right => MarkedOptional left ∧ MarkedOptional right
  | .unary _ _ operand => MarkedOptional operand
  | .parenthesized _ inner => MarkedOptional inner
  | .list _ items | .dictionary _ items | .conditional _ items | .expressionList _ items =>
    MarkedExprs items
  | .lambda _ none body => MarkedOptional body
  | .lambda _ (some ⟨_, items⟩) body => MarkedParameters items ∧ MarkedOptional body
  | .yield _ value => MarkedOptional value
  | .comprehension _ elements clauses _ _ => MarkedClauses clauses ∧ MarkedExprs elements

def MarkedOptional : Option Expr → Prop
  | none => True
  | some e => e.Marked

def MarkedExprs : List Expr → Prop
  | [] => True
  | e :: rest => e.Marked ∧ MarkedExprs rest

def MarkedTrailers : List Trailer → Prop
  | [] => True
  | .attribute _ name :: rest => (∀ part ∈ name, part.Marked mark) ∧ MarkedTrailers rest
  | .arguments _ items :: rest => MarkedArguments items ∧ MarkedTrailers rest
  | .subscripts _ items :: rest => MarkedSubscripts items ∧ MarkedTrailers rest

def MarkedArguments : List Argument → Prop
  | [] => True
  | ⟨extent, _, _, value⟩ :: rest => mark extent ∧ MarkedOptional value ∧ MarkedArguments rest

def MarkedSubscripts : List Subscript → Prop
  | [] => True
  | ⟨_, parts⟩ :: rest => MarkedExprs parts ∧ MarkedSubscripts rest

def MarkedParameters : List Parameter → Prop
  | [] => True
  | ⟨_, _, hint, value, _⟩ :: rest => MarkedHolder hint ∧ MarkedHolder value ∧ MarkedParameters rest

def MarkedHolder : Option Holder → Prop
  | none => True
  | some ⟨_, value⟩ => MarkedOptional value

def MarkedClauses : List Clause → Prop
  | [] => True
  | .forClause _ target iterable :: rest =>
    MarkedOptional target ∧ MarkedOptional iterable ∧ MarkedClauses rest
  | .ifClause _ condition :: rest => MarkedOptional condition ∧ MarkedClauses rest

end

def MarkedWithItem (item : WithItem) : Prop :=
  MarkedOptional mark item.value ∧ MarkedOptional mark item.target

mutual

def Statement.Marked : Statement → Prop
  | .expressionStatement _ items _ _ hint => MarkedExprs mark items ∧ MarkedHolder mark hint
  | .returnStatement _ value | .delStatement _ value => MarkedOptional mark value
  | .raiseStatement _ items | .assertStatement _ items => MarkedExprs mark items
  | .function _ decorators _ parameters returns body =>
    (∀ item ∈ decorators, MarkedHolder mark (some item)) ∧
      MarkedParameters mark (parametersOf parameters) ∧ MarkedHolder mark returns ∧ MarkedSuite body
  | .classDefinition _ decorators _ bases body =>
    (∀ item ∈ decorators, MarkedHolder mark (some item)) ∧ MarkedArguments mark (basesOf bases) ∧
      MarkedSuite body
  | .ifStatement _ condition body branches otherwise =>
    MarkedOptional mark condition ∧ MarkedSuite body ∧ MarkedBranches branches ∧ MarkedBlock otherwise
  | .whileStatement _ condition body otherwise =>
    MarkedOptional mark condition ∧ MarkedSuite body ∧ MarkedBlock otherwise
  | .forStatement _ target iterable body otherwise =>
    MarkedOptional mark target ∧ MarkedOptional mark iterable ∧ MarkedSuite body ∧ MarkedBlock otherwise
  | .withStatement _ items body => (∀ item ∈ items, MarkedWithItem mark item) ∧ MarkedSuite body
  | .tryStatement _ body handlers otherwise cleanup =>
    MarkedSuite body ∧ MarkedHandlers handlers ∧ MarkedBlock otherwise ∧ MarkedBlock cleanup
  | .passStatement _ | .breakStatement _ | .continueStatement _ | .globalStatement _ _ _
  | .importStatement _ _ | .fromImportStatement _ _ _ _ => True

def MarkedStatements : List Statement → Prop
  | [] => True
  | first :: rest => first.Marked ∧ MarkedStatements rest

def MarkedSuite : Option Suite → Prop
  | none => True
  | some ⟨_, items⟩ => MarkedStatements items

def MarkedBranches : List Branch → Prop
  | [] => True
  | ⟨_, condition, body⟩ :: rest => MarkedOptional mark condition ∧ MarkedSuite body ∧ MarkedBranches rest

def MarkedHandlers : List Handler → Prop
  | [] => True
  | ⟨_, caught, _, body⟩ :: rest => MarkedOptional mark caught ∧ MarkedSuite body ∧ MarkedHandlers rest

def MarkedBlock : Option Block → Prop
  | none => True
  | some ⟨_, body⟩ => MarkedSuite body

end

namespace Part

/-- All that can be shown in the part is marked. -/
def Marked : Part → Prop
  | .leaf own => own.kind = .name → mark (leafExtent own)
  | .expr part => part.Marked mark
  | .trailer part => MarkedTrailers mark [part]
  | .clause part => MarkedClauses mark [part]
  | .argument part => MarkedArguments mark [part]
  | .subscript part => MarkedSubscripts mark [part]
  | .parameters part => MarkedParameters mark part.items
  | .parameter part => MarkedParameters mark [part]
  | .holder _ part => MarkedHolder mark (some part)
  | .withItem part => MarkedWithItem mark part
  | .suite part => MarkedSuite mark (some part)
  | .branch part => MarkedBranches mark [part]
  | .handler part => MarkedHandlers mark [part]
  | .block _ part => MarkedBlock mark (some part)
  | .statement part => part.Marked mark
  | .script part => MarkedStatements mark part.statements
  | .dottedName _ | .importAlias _ | .error _ => True

end Part

end Marked

namespace Part

section Picks

variable {mark : Extent → Prop} {parts : List Part}

private theorem marked_picked {α : Type} {pick : Part → Option α} {gather : List α → Prop}
    (h : ∀ part ∈ parts, part.Marked mark)
    (hpick : ∀ part item, pick part = some item → part.Marked mark → gather [item])
    (hnil : gather []) (hcons : ∀ item rest, gather [item] → gather rest → gather (item :: rest)) :
    gather (parts.filterMap pick) := by
  induction parts with
  | nil => exact hnil
  | cons part rest ih =>
    obtain ⟨hpart, hrest⟩ := List.forall_mem_cons.mp h
    cases hitem : pick part with
    | none =>
      rw [List.filterMap_cons_none hitem]
      exact ih hrest
    | some item =>
      rw [List.filterMap_cons_some hitem]
      exact hcons item _ (hpick part item hitem hpart) (ih hrest)

private theorem marked_found {α : Type} {pick : Part → Option α} {gather : Option α → Prop}
    (h : ∀ part ∈ parts, part.Marked mark)
    (hpick : ∀ part item, pick part = some item → part.Marked mark → gather (some item))
    (hnone : gather none) : gather (parts.findSome? pick) := by
  cases hfound : parts.findSome? pick with
  | none => exact hnone
  | some item =>
    obtain ⟨part, hmem, hpart⟩ := List.exists_of_findSome?_eq_some hfound
    exact hpick part item hpart (h part hmem)

variable (h : ∀ part ∈ parts, part.Marked mark)
include h

private theorem marked_of_mem_exprs : ∀ e ∈ parts.filterMap expr?, e.Marked mark := by
  intro e hmem
  obtain ⟨part, hpart, he⟩ := List.mem_filterMap.mp hmem
  cases part <;> cases he
  exact h _ hpart

private theorem markedExprs_exprs : MarkedExprs mark (parts.filterMap expr?) := by
  refine marked_picked h (fun part item hitem hpart => ?_) trivial fun _ _ hitem hrest => ⟨hitem.1, hrest⟩
  cases part <;> cases hitem
  exact ⟨hpart, trivial⟩

private theorem markedOptional_exprs {found : Option Expr} (hfound : ∀ e ∈ found, e ∈ parts.filterMap expr?) :
    MarkedOptional mark found := by
  cases found with
  | none => trivial
  | some e => exact marked_of_mem_exprs h e (hfound e rfl)

private theorem markedOptional_head : MarkedOptional mark (parts.filterMap expr?).head? :=
  markedOptional_exprs h fun _ => List.mem_of_mem_head?

private theorem markedOptional_second : MarkedOptional mark (parts.filterMap expr?)[1]? :=
  markedOptional_exprs h fun _ => List.mem_of_getElem?

private theorem markedOptional_last : MarkedOptional mark (parts.filterMap expr?).getLast? :=
  markedOptional_exprs h fun _ => List.mem_of_getLast?

private theorem marked_head_name : ∀ part ∈ (parts.filterMap name?).head?, part.Marked mark := by
  intro name hmem
  obtain ⟨part, hpart, hname⟩ := List.mem_filterMap.mp (List.mem_of_mem_head? hmem)
  have hmarked := h part hpart
  unfold name? at hname
  split at hname
  · cases hname
    exact hmarked
  · cases hname

private theorem mark_ident : ∀ own ∈ (parts.filterMap significantLeaf?).find? (fun leaf => leaf.kind = .name),
    mark (leafExtent own) := by
  intro own hmem
  obtain ⟨part, hpart, hleaf⟩ := List.mem_filterMap.mp (List.mem_of_find?_eq_some hmem)
  have hfound := List.find?_some (p := fun leaf : Leaf => decide (leaf.kind = .name)) hmem
  have hkind : own.kind = .name := of_decide_eq_true hfound
  cases part with
  | leaf part =>
    rw [significantLeaf?] at hleaf
    split at hleaf
    · cases hleaf
    · cases hleaf
      exact h _ hpart hkind
  | _ => cases hleaf

private theorem markedTrailers_trailers : MarkedTrailers mark (parts.filterMap trailer?) := by
  refine marked_picked h (fun part item hitem hpart => ?_) trivial fun item rest hitem hrest => ?_
  · cases part <;> cases hitem
    exact hpart
  · cases item <;> exact ⟨hitem.1, hrest⟩

private theorem markedClauses_clauses : MarkedClauses mark (parts.filterMap clause?) := by
  refine marked_picked h (fun part item hitem hpart => ?_) trivial fun item rest hitem hrest => ?_
  · cases part <;> cases hitem
    exact hpart
  · cases item
    · exact ⟨hitem.1, hitem.2.1, hrest⟩
    · exact ⟨hitem.1, hrest⟩

private theorem markedArguments_arguments : MarkedArguments mark (parts.filterMap argument?) := by
  refine marked_picked h (fun part item hitem hpart => ?_) trivial fun item rest hitem hrest => ?_
  · cases part <;> cases hitem
    exact hpart
  · obtain ⟨_, _, _, _⟩ := item
    exact ⟨hitem.1, hitem.2.1, hrest⟩

private theorem markedSubscripts_subscripts : MarkedSubscripts mark (parts.filterMap subscript?) := by
  refine marked_picked h (fun part item hitem hpart => ?_) trivial fun item rest hitem hrest => ?_
  · cases part <;> cases hitem
    exact hpart
  · obtain ⟨_, _⟩ := item
    exact ⟨hitem.1, hrest⟩

private theorem markedParameters_parameters : MarkedParameters mark (parts.filterMap parameter?) := by
  refine marked_picked h (fun part item hitem hpart => ?_) trivial fun item rest hitem hrest => ?_
  · cases part <;> cases hitem
    exact hpart
  · obtain ⟨_, _, _, _, _⟩ := item
    exact ⟨hitem.1, hitem.2.1, hrest⟩

private theorem markedParameters_list : MarkedParameters mark (parametersOf (parts.findSome? parameters?)) := by
  cases hfound : parts.findSome? parameters? with
  | none => trivial
  | some item =>
    obtain ⟨part, hmem, hpart⟩ := List.exists_of_findSome?_eq_some hfound
    cases part <;> cases hpart
    exact h _ hmem

private theorem markedArguments_bases : MarkedArguments mark (basesOf (parts.findSome? arguments?)) := by
  cases hfound : parts.findSome? arguments? with
  | none => trivial
  | some item =>
    obtain ⟨part, hmem, hpart⟩ := List.exists_of_findSome?_eq_some hfound
    have hmarked := h part hmem
    unfold arguments? at hpart
    split at hpart
    · cases hpart
      exact hmarked.1
    · cases hpart

private theorem markedHolder_holder (kind : NodeKind) : MarkedHolder mark (parts.findSome? (holder? kind)) := by
  refine marked_found h (fun part item hitem hpart => ?_) trivial
  cases part with
  | holder own part =>
    rw [holder?] at hitem
    split at hitem
    · cases hitem
      exact hpart
    · cases hitem
  | _ => cases hitem

private theorem markedHolder_decorators : ∀ item ∈ parts.filterMap (holder? .decorator),
    MarkedHolder mark (some item) := by
  intro item hmem
  obtain ⟨part, hpart, hitem⟩ := List.mem_filterMap.mp hmem
  have hmarked := h part hpart
  cases part with
  | holder own part =>
    rw [holder?] at hitem
    split at hitem
    · cases hitem
      exact hmarked
    · cases hitem
  | _ => cases hitem

private theorem markedWithItem_items : ∀ item ∈ parts.filterMap withItem?, MarkedWithItem mark item := by
  intro item hmem
  obtain ⟨part, hpart, hitem⟩ := List.mem_filterMap.mp hmem
  have hmarked := h part hpart
  cases part <;> cases hitem
  exact hmarked

private theorem markedStatements_statements : MarkedStatements mark (parts.filterMap statement?) := by
  refine marked_picked h (fun part item hitem hpart => ?_) trivial fun _ _ hitem hrest => ⟨hitem.1, hrest⟩
  cases part <;> cases hitem
  exact ⟨hpart, trivial⟩

private theorem markedSuite_suite : MarkedSuite mark (parts.findSome? suite?) := by
  refine marked_found h (fun part item hitem hpart => ?_) trivial
  cases part <;> cases hitem
  exact hpart

private theorem markedBranches_branches : MarkedBranches mark (parts.filterMap branch?) := by
  refine marked_picked h (fun part item hitem hpart => ?_) trivial fun item rest hitem hrest => ?_
  · cases part <;> cases hitem
    exact hpart
  · obtain ⟨_, _, _⟩ := item
    exact ⟨hitem.1, hitem.2.1, hrest⟩

private theorem markedHandlers_handlers : MarkedHandlers mark (parts.filterMap handler?) := by
  refine marked_picked h (fun part item hitem hpart => ?_) trivial fun item rest hitem hrest => ?_
  · cases part <;> cases hitem
    exact hpart
  · obtain ⟨_, _, _, _⟩ := item
    exact ⟨hitem.1, hitem.2.1, hrest⟩

private theorem markedBlock_block (kind : NodeKind) : MarkedBlock mark (parts.findSome? (block? kind)) := by
  refine marked_found h (fun part item hitem hpart => ?_) trivial
  cases part with
  | block own part =>
    rw [block?] at hitem
    split at hitem
    · cases hitem
      exact hpart
    · cases hitem
  | _ => cases hitem

end Picks

private theorem marked_assemble {mark : Extent → Prop} {parts : List Part} {kind : NodeKind} {extent : Extent}
    (h : ∀ part ∈ parts, part.Marked mark) (hplaced : kind.isPlaced = true → mark extent) :
    (assemble kind extent parts).Marked mark := by
  cases kind
  case file | suite => exact markedStatements_statements h
  case expressionStatement => exact ⟨markedExprs_exprs h, markedHolder_holder h _⟩
  case returnStatement | delStatement => exact markedOptional_head h
  case raiseStatement | assertStatement => exact markedExprs_exprs h
  case function =>
    exact ⟨markedHolder_decorators h, markedParameters_list h, markedHolder_holder h _, markedSuite_suite h⟩
  case classDefinition =>
    exact ⟨markedHolder_decorators h, markedArguments_bases h, markedSuite_suite h⟩
  case ifStatement =>
    exact ⟨markedOptional_head h, markedSuite_suite h, markedBranches_branches h, markedBlock_block h _⟩
  case whileStatement => exact ⟨markedOptional_head h, markedSuite_suite h, markedBlock_block h _⟩
  case forStatement =>
    exact ⟨markedOptional_head h, markedOptional_second h, markedSuite_suite h, markedBlock_block h _⟩
  case withStatement => exact ⟨markedWithItem_items h, markedSuite_suite h⟩
  case withItem =>
    refine ⟨markedOptional_head h, ?_⟩
    change MarkedOptional mark (if _ then _ else _)
    split
    · exact markedOptional_second h
    · trivial
  case tryStatement =>
    exact ⟨markedSuite_suite h, markedHandlers_handlers h, markedBlock_block h _, markedBlock_block h _⟩
  case exceptClause | elifClause => exact ⟨markedOptional_head h, markedSuite_suite h, trivial⟩
  case elseClause | finallyClause => exact markedSuite_suite h
  case typeHint | defaultValue | returnType | decorator => exact markedOptional_head h
  case parameters => exact markedParameters_parameters h
  case parameter => exact ⟨markedHolder_holder h _, markedHolder_holder h _, trivial⟩
  case name => exact ⟨hplaced rfl, mark_ident h⟩
  case literal => exact hplaced rfl
  case chain => exact ⟨hplaced rfl, markedOptional_head h, markedTrailers_trailers h⟩
  case binary => exact ⟨markedOptional_head h, markedOptional_second h⟩
  case unary | parenthesized | yield => exact markedOptional_head h
  case list | dictionary | conditional | expressionList => exact markedExprs_exprs h
  case lambda =>
    have hparameters := markedParameters_list h
    change Expr.Marked mark (.lambda _ (parts.findSome? parameters?) _)
    cases hfound : parts.findSome? parameters? with
    | none => exact markedOptional_head h
    | some part =>
      rw [hfound] at hparameters
      obtain ⟨_, items⟩ := part
      exact ⟨hparameters, markedOptional_head h⟩
  case comprehension => exact ⟨markedClauses_clauses h, markedExprs_exprs h⟩
  case forClause => exact ⟨markedOptional_head h, markedOptional_second h, trivial⟩
  case ifClause => exact ⟨markedOptional_head h, trivial⟩
  case arguments => exact ⟨markedArguments_arguments h, trivial⟩
  case argument => exact ⟨hplaced rfl, markedOptional_last h, trivial⟩
  case subscripts => exact ⟨markedSubscripts_subscripts h, trivial⟩
  case subscript => exact ⟨markedExprs_exprs h, trivial⟩
  case «attribute» => exact ⟨marked_head_name h, trivial⟩
  all_goals trivial

mutual

private theorem marked_ofTree {text : List Char} (before after : List Char) (tree : Tree)
    (htext : text = before ++ (tree.text ++ after)) (hinked : Inked tree.leaves) (hrooted : tree.Rooted) :
    (ofTree (byteLength before) tree).Marked (Extent.Clear text) := by
  match tree with
  | .token kind own =>
    intro hname
    have hclear := clear_ofTree before after (.token kind own) htext hinked
    refine hclear ?_
    obtain rfl : kind = .name := hname
    rfl
  | .node kind children =>
    have hclear := clear_ofTree before after (.node kind children) htext hinked
    rw [ofTree, extent_assemble] at hclear
    rw [ofTree]
    refine marked_assemble (marked_ofTrees before after children htext hinked hrooted.2) fun hplaced => ?_
    obtain ⟨part, hmem, hseen⟩ := seen_ofTrees (byteLength before) children (hrooted.1 hplaced)
    exact hclear (extentOf_of_mem (pairwise_ofTrees _ children) hmem hseen).1

private theorem marked_ofTrees {text : List Char} (before after : List Char) (trees : List Tree)
    (htext : text = before ++ ((Tree.leavesAll trees).flatMap Prod.snd ++ after))
    (hinked : Inked (Tree.leavesAll trees)) (hrooted : Tree.RootedAll trees) :
    ∀ part ∈ ofTrees (byteLength before) trees, part.Marked (Extent.Clear text) := by
  match trees with
  | [] =>
    intro part hmem
    rw [ofTrees] at hmem
    cases hmem
  | tree :: trees =>
    obtain ⟨htree, htrees⟩ := List.forall_mem_append.mp hinked
    rw [Tree.leavesAll, List.flatMap_append] at htext
    rw [ofTrees_cons, Tree.byteLength_eq, ← Text.byteLength_append]
    refine List.forall_mem_cons.mpr ⟨?_, ?_⟩
    · refine marked_ofTree before ((Tree.leavesAll trees).flatMap Prod.snd ++ after) tree ?_ htree hrooted.1
      rw [htext, List.append_assoc]
      rfl
    · refine marked_ofTrees (before ++ tree.text) after trees ?_ htrees hrooted.2
      rw [htext, List.append_assoc, List.append_assoc]
      rfl

end

end Part

end Ast

theorem Lexeme.text_ne_nil {text : List Char} {lexeme : Lexeme} (h : lexeme ∈ ofText text) :
    lexeme.text ≠ [] := by
  fun_induction ofText text with
  | case1 => cases h
  | case2 c cs kind n _ ih =>
    rcases List.mem_cons.mp h with rfl | h
    · exact List.cons_ne_nil _ _
    · exact ih h

namespace Ast

open Syntax

theorem Part.inked_parse (text : List Char) : Inked (parse text).tree.leaves := by
  have hleaves : (parse text).tree.leaves = (Token.ofText text).map Token.entry :=
    (parse_lossless text).2.2.2.2.2.2
  rw [hleaves]
  intro leaf hmem hlayout
  obtain ⟨token, htoken, rfl⟩ := List.mem_map.mp hmem
  rcases Layout.springs_tokens _ _ token htoken with hkind | ⟨lexeme, hlexeme, rfl⟩
  · have hall : ∀ kind ∈ [TokenKind.newline, .indent, .dedent, .blank], isLayout kind = true := by decide
    have hedge : isLayout token.kind = false := hlayout
    rw [hall token.kind hkind] at hedge
    cases hedge
  · rw [Token.entry, Token.text_ofLexeme]
    exact Lexeme.text_ne_nil hlexeme

/-- All that can be shown in the script of a text is clear in the text. -/
theorem Script.marked_ofText (text : List Char) :
    MarkedStatements (Extent.Clear text) (Script.ofTree (parse text).tree).statements := by
  have htext : text = [] ++ ((parse text).tree.text ++ []) := by
    rw [List.append_nil]
    exact (parse_lossless text).2.2.1.symm
  have hmarked := Part.marked_ofTree [] [] (parse text).tree htext (Part.inked_parse text) (parse_rooted text)
  exact hmarked

end Ast

end QuantumScript
