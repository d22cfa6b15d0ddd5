import QuantumScript.Proofs.Folding.Laws
import QuantumScript.Proofs.Folding.Leaves
import QuantumScript.Proofs.Locating.Rows
import QuantumScript.Proofs.Parsing.Complete
import QuantumScript.Proofs.Seams.Folds
/-!
# Origins of terms

Each leaf of a folded statement comes from a span of the statement, and is shown at it. The spans follow one
another as the leaves do, so nothing in the source becomes two leaves. A name comes from an identifier of its
own. This is shown by going up the tree: what a part folds to stands in a row in the part.
-/

namespace QuantumScript

namespace Term

/-- The name of a leaf that has one. -/
def name? : Term → Option String
  | .reference name _ | .methodCall name _ _ | .element name _ _ => some name
  | _ => none

mutual

/-- Number of assignments in a term. -/
def assignments : Term → Nat
  | .assignment target value => assignments target + assignments value + 1
  | .expression terms => assignmentsIn terms
  | .methodCall _ arguments _ => assignmentsIn arguments
  | _ => 0

def assignmentsIn : List Term → Nat
  | [] => 0
  | term :: terms => assignments term + assignmentsIn terms

end

theorem assignmentsIn_eq_zero {terms : List Term} :
    assignmentsIn terms = 0 ↔ ∀ term ∈ terms, term.assignments = 0 := by
  induction terms with
  | nil => simp [assignmentsIn]
  | cons term terms ih => simp [assignmentsIn, ih]

/-- Targets stand before what they are assigned. -/
theorem leaves_foldr_assignment (targets : List Term) (value : Term) :
    (targets.foldr .assignment value).leaves = leavesAll targets ++ value.leaves := by
  induction targets with
  | nil => rfl
  | cons target targets ih => rw [List.foldr_cons, leaves, ih, leavesAll, List.append_assoc]

theorem assignments_foldr_assignment {targets : List Term} {value : Term}
    (htargets : ∀ target ∈ targets, target.assignments = 0) (hvalue : value.assignments = 0) :
    (targets.foldr .assignment value).assignments = targets.length := by
  induction targets with
  | nil => exact hvalue
  | cons target targets ih =>
    obtain ⟨htarget, htargets⟩ := List.forall_mem_cons.mp htargets
    rw [List.foldr_cons, assignments, htarget, ih htargets, Nat.zero_add, List.length_cons]

end Term

namespace Folding

open Text (Cuts LineIndex Row)
open Syntax Term

section Plain

variable {index : LineIndex}

/-- No expression folds to anything with an assignment in it. -/
theorem keeps_plain (index : LineIndex) : Keeps index fun term => term.assignments = 0 where
  reference _ := rfl
  literal h := by
    unfold literal at h
    split at h
    · cases h
    · split at h
      · obtain ⟨_, _, rfl⟩ := Option.map_eq_some_iff.mp h
        rfl
      · obtain ⟨_, _, rfl⟩ := Option.map_eq_some_iff.mp h
        rfl
      all_goals cases h <;> rfl
  dictionary _ := rfl
  expression := assignmentsIn_eq_zero.mpr
  methodCall _ _ := assignmentsIn_eq_zero.mpr
  element _ _ _ := rfl
  signed hoperand h := by
    unfold signed at h
    split at h
    · split at h
      all_goals cases h <;> rfl
    · cases h
      exact hoperand
    · cases h

end Plain

section Leaves

variable (index : LineIndex)

theorem leavesAll_exprs (es : List Ast.Expr) :
    leavesAll (exprs index es) = es.flatMap fun e => leavesAll (expr index e).toList := by
  induction es with
  | nil => rfl
  | cons e es ih => rw [exprs, leavesAll_append, ih, List.flatMap_cons]

private theorem leavesAll_operands (operand : Option Ast.Expr) :
    leavesAll (operands index operand) = leavesAll (optional index operand).toList := by
  cases operand with
  | none => rfl
  | some e =>
    cases e with
    | binary extent operator left right => rw [operands, optional, expr, leavesAll_collapse]
    | _ => rfl

private theorem leavesAll_optional (e : Option Ast.Expr) :
    leavesAll (optional index e).toList = leavesAll (exprs index e.toList) := by
  cases e with
  | none => rfl
  | some e => rw [Option.toList_some, leavesAll_exprs, List.flatMap_singleton, optional]

private theorem leavesAll_arguments (items : List Ast.Argument) :
    leavesAll (arguments index items) =
      items.flatMap fun item => leavesAll (optional index item.value).toList := by
  induction items with
  | nil => rfl
  | cons item items ih =>
    obtain ⟨extent, keyword, unpacked, value⟩ := item
    rw [arguments, leavesAll_append, ih, List.flatMap_cons]

end Leaves

/-- The leaf is shown at the span. If it has a name then this is an identifier that stands there. -/
structure Stems (text : List Char) (leaf : Term) (span : Span) : Prop where
  position : leaf.position? = some ((LineIndex.ofText text).position span)
  named : ∀ name ∈ leaf.name?, Identifier text name span

/-- The leaves of the terms come from spans in a row. -/
def Traced (text : List Char) (first last : Nat) (terms : List Term) : Prop :=
  Row text (Stems text) first last (leavesAll terms)

/-- What a trailer brings in comes from the trailer. -/
def TracedTrailer (text : List Char) : Ast.Trailer → Prop
  | .attribute extent name =>
    Traced text extent.core.start extent.core.stop
      ((name.bind Ast.Name.ident).toList.map (reference (.ofText text)))
  | .arguments extent items =>
    Traced text extent.core.start extent.core.stop (arguments (.ofText text) items)
  | .subscripts _ _ => True

/-- What a part folds to comes from the part. -/
def TracedPart (text : List Char) : Ast.Part → Prop
  | .leaf own => own.kind = .name → Identifier text own.text own.span
  | .expr e => Traced text e.extent.core.start e.extent.core.stop (expr (.ofText text) e).toList
  | .trailer trailer => TracedTrailer text trailer
  | .argument item =>
    Traced text item.extent.core.start item.extent.core.stop (optional (.ofText text) item.value).toList
  | .statement (.expressionStatement extent items _ _ _) =>
    Traced text extent.core.start extent.core.stop (exprs (.ofText text) items)
  | _ => True

section Chains

variable {text : List Char} {first mid last : Nat}

private theorem row_applied {rest more : List Term} {leaf : Term} {name : String} {position : Position}
    (h : Traced text first mid (.reference name position :: rest).reverse)
    (hposition : leaf.position? = some position) (hname : leaf.name? = some name)
    (hmore : Row text (Stems text) mid last more) :
    Row text (Stems text) first last (leavesAll rest.reverse ++ leaf :: more) := by
  rw [Traced, List.reverse_cons, leavesAll_append, leavesAll_singleton, leaves] at h
  obtain ⟨early, hrest, hreference⟩ := h.split
  cases hreference with
  | cons hearly hcuts hstems hend =>
    refine hrest.append (.cons hearly hcuts ⟨hposition.trans hstems.position, fun found hfound => ?_⟩
      (hmore.widen hend.le (Nat.le_refl _)))
    rw [hname] at hfound
    exact hstems.named found hfound

private theorem traced_applyCall {arguments terms : List Term} (h : Traced text first mid terms.reverse)
    (harguments : Traced text mid last arguments) : Traced text first last (applyCall arguments terms).reverse := by
  unfold applyCall
  split
  · rw [Traced, List.reverse_cons, leavesAll_append, leavesAll_singleton, leaves]
    exact row_applied h rfl rfl harguments
  · exact h.widen (Nat.le_refl _) harguments.le

private theorem traced_applyIndex {indices terms : List Term} (h : Traced text first mid terms.reverse)
    (hle : mid ≤ last) :
    Traced text first last (applyIndex indices terms).reverse := by
  unfold applyIndex
  split
  · rw [Traced, List.reverse_cons, leavesAll_append, leavesAll_singleton, leaves]
    exact row_applied h rfl rfl (.nil hle)
  · exact h.widen (Nat.le_refl _) hle

private theorem traced_chain {terms : List Term} {trailers : List Ast.Trailer}
    (h : Traced text first mid terms.reverse)
    (hrow : Row text (fun trailer span => trailer.extent.core = span) mid last trailers)
    (htrailers : ∀ trailer ∈ trailers, TracedTrailer text trailer) :
    Traced text first last (chain (.ofText text) terms trailers).reverse := by
  induction trailers generalizing terms mid with
  | nil => exact h.widen (Nat.le_refl _) hrow.le
  | cons trailer rest ih =>
    obtain ⟨htrailer, hrest⟩ := List.forall_mem_cons.mp htrailers
    cases hrow with
    | cons hmid hcuts hspan hrow =>
      obtain rfl := hspan
      have hbefore := h.widen (Nat.le_refl _) hmid
      cases trailer with
      | «attribute» extent name =>
        refine ih ?_ hrow hrest
        rw [Traced, List.reverse_append, leavesAll_append]
        refine hbefore.append ?_
        rw [TracedTrailer] at htrailer
        cases hname : name.bind Ast.Name.ident <;> rwa [hname] at htrailer
      | arguments extent items => exact ih (traced_applyCall hbefore htrailer) hrow hrest
      | subscripts extent items =>
        exact ih (traced_applyIndex hbefore (Nat.le_of_lt hcuts.nonempty)) hrow hrest

end Chains

section Parts

open Ast Ast.Part

variable {text : List Char} {first last : Nat} {parts : List Ast.Part}

variable (hparts : ∀ part ∈ parts, TracedPart text part)
  (hseen : ∀ part ∈ parts, part.isFolded = true → part.extent.first.isSome = true)
  (hrow : Row text SeenAt first last (seen parts))

include hparts hseen hrow

private theorem row_folded {α : Type} {pick : Ast.Part → Option α} (extent : α → Extent) (fold : α → List Term)
    (hpick : ∀ part item, pick part = some item → part.isFolded = true ∧ part.extent = extent item ∧
      (TracedPart text part → Traced text (extent item).core.start (extent item).core.stop (fold item)))
    {items : List α} (hsub : items.Sublist (parts.filterMap pick)) :
    Row text (Stems text) first last (items.flatMap fun item => leavesAll (fold item)) := by
  have hitems : Row text (fun item span => (extent item).core = span) first last (parts.filterMap pick) :=
    row_picked hrow (fun part item hitem => (hpick part item hitem).2.1)
      fun part hmem item hitem => hseen part hmem (hpick part item hitem).1
  refine (hitems.sublist hsub).flatMap fun item hmem span hspan => ?_
  obtain ⟨part, hpart, hitem⟩ := List.mem_filterMap.mp (hsub.subset hmem)
  obtain rfl := hspan
  exact (hpick part item hitem).2.2 (hparts part hpart)

private theorem traced_exprs {items : List Ast.Expr} (hsub : items.Sublist (parts.filterMap expr?)) :
    Traced text first last (exprs (.ofText text) items) := by
  rw [Traced, leavesAll_exprs]
  refine row_folded hparts hseen hrow Ast.Expr.extent _ (fun part e he => ?_) hsub
  cases part <;> cases he
  exact ⟨rfl, rfl, id⟩

private theorem traced_optional {found : Option Ast.Expr} (hfound : ∀ e ∈ found, e ∈ parts.filterMap expr?) :
    Traced text first last (optional (.ofText text) found).toList := by
  rw [Traced, leavesAll_optional]
  refine traced_exprs hparts hseen hrow ?_
  cases found with
  | none => exact List.nil_sublist _
  | some e => exact List.singleton_sublist.mpr (hfound e rfl)

private theorem traced_operands : Traced text first last
    (collapse (operands (.ofText text) (parts.filterMap expr?).head? ++
      operands (.ofText text) (parts.filterMap expr?)[1]?)).toList := by
  have htwo : ((parts.filterMap Ast.Part.expr?).take 2) =
      (parts.filterMap Ast.Part.expr?).head?.toList ++ (parts.filterMap Ast.Part.expr?)[1]?.toList := by
    rcases parts.filterMap Ast.Part.expr? with _ | ⟨left, _ | ⟨right, rest⟩⟩ <;> rfl
  have hexprs := traced_exprs hparts hseen hrow (List.take_sublist 2 _)
  rw [Traced, leavesAll_exprs, htwo, List.flatMap_append, ← leavesAll_exprs, ← leavesAll_exprs,
    ← leavesAll_optional, ← leavesAll_optional, ← leavesAll_operands, ← leavesAll_operands] at hexprs
  rwa [Traced, leavesAll_collapse, leavesAll_append]

private theorem traced_arguments :
    Traced text first last (arguments (.ofText text) (parts.filterMap argument?)) := by
  rw [Traced, leavesAll_arguments]
  refine row_folded hparts hseen hrow Argument.extent _ (fun part item hitem => ?_) (List.Sublist.refl _)
  cases part <;> cases hitem
  exact ⟨rfl, rfl, id⟩

private theorem traced_access : Traced text first last
    (((parts.filterMap Ast.Part.name?).head?.bind Name.ident).toList.map (reference (.ofText text))) := by
  have hnames : Row text (Stems text) first last (((parts.filterMap Ast.Part.name?).take 1).flatMap fun name =>
      leavesAll (name.ident.map (reference (.ofText text))).toList) := by
    refine row_folded hparts hseen hrow Name.extent _ (fun part name hname => ?_) (List.take_sublist 1 _)
    unfold Ast.Part.name? at hname
    split at hname <;> cases hname
    exact ⟨rfl, rfl, id⟩
  cases hnil : parts.filterMap Ast.Part.name? with
  | nil =>
    rw [hnil] at hnames
    exact hnames
  | cons name rest =>
    rw [hnil, List.take_succ_cons, List.take_zero, List.flatMap_singleton] at hnames
    rwa [List.head?_cons, Option.bind_some, ← Option.toList_map]

omit hparts hseen in
private theorem row_leaf {own : Leaf} (hmem : .leaf own ∈ parts) (hlayout : isLayout own.kind = false)
    {leaf : Term}
    (hstems : Stems text leaf own.span) : Row text (Stems text) first last [leaf] := by
  have hextent : (leafExtent own).core = own.span := by
    rw [leafExtent, hlayout, if_neg Bool.false_ne_true]
    rfl
  have hown : Ast.Part.leaf own ∈ seen parts := by
    refine mem_seen.mpr ⟨hmem, ?_⟩
    rw [extent, leafExtent, hlayout]
    rfl
  obtain ⟨span, hspan, hcuts, hfirst, hlast⟩ := hrow.of_mem hown
  have hcore : own.span = span := hextent.symm.trans hspan
  exact .cons hfirst hcuts (hcore ▸ hstems) (.nil hlast)

end Parts

section Nodes

open Ast Ast.Part

variable {text : List Char} {extent : Extent} {parts : List Ast.Part}

private theorem leaf_mem {own : Leaf} (h : own ∈ parts.filterMap significantLeaf?) : .leaf own ∈ parts := by
  obtain ⟨part, hmem, hown⟩ := List.mem_filterMap.mp h
  cases part with
  | leaf other =>
    rw [significantLeaf?] at hown
    split at hown <;> cases hown
    exact hmem
  | _ => cases hown

private theorem parts_of_chain {parts : List Ast.Part}
    (hfits : (Shape.ofKind .chain).Fits (parts.filterMap piece?)) :
    ∃ before e after, parts = before ++ .expr e :: after ∧
      parts.filterMap expr? = e :: after.filterMap expr? ∧
      parts.filterMap trailer? = after.filterMap trailer? := by
  obtain ⟨front, pieces, hpieces, ⟨piece, hpiece, rfl⟩, -⟩ := hfits
  obtain ⟨before, atom, after, rfl, hbefore, hatom, -⟩ := List.filterMap_eq_cons_iff.mp hpieces
  have hsome : atom.expr?.isSome = true := by
    have hfulfils := fulfils_piece hatom
    simp only [List.mem_cons, List.not_mem_nil, or_false] at hpiece
    rcases hpiece with rfl | rfl
    · exact (Bool.and_eq_true _ _ ▸ hfulfils).2
    · exact hfulfils
  have hexprs : before.filterMap Ast.Part.expr? = [] := List.filterMap_eq_nil_iff.mpr fun part hmem => by
    have hnone := hbefore part hmem
    cases part <;> first | rfl | cases hnone
  have htrailers : before.filterMap trailer? = [] := List.filterMap_eq_nil_iff.mpr fun part hmem => by
    have hnone := hbefore part hmem
    cases part <;> first | rfl | cases hnone
  cases atom with
  | expr e =>
    rw [List.filterMap_append, List.filterMap_append, hexprs, htrailers]
    exact ⟨before, e, after, rfl, rfl, rfl⟩
  | _ => cases hsome

private theorem row_core (hcuts : Cuts text extent.core) {leaf : Term}
    (hposition : leaf.position? = some ((LineIndex.ofText text).position extent.core)) (hname : leaf.name? = none) :
    Row text (Stems text) extent.core.start extent.core.stop [leaf] :=
  .cons (Nat.le_refl _) hcuts ⟨hposition, by rw [hname]; exact nofun⟩ (.nil (Nat.le_refl _))

private theorem traced_signed (hcuts : Cuts text extent.core) {operator : Option TokenKind} {term : Term}
    (h : Traced text extent.core.start extent.core.stop [term]) :
    Traced text extent.core.start extent.core.stop
      (signed operator term ((LineIndex.ofText text).position extent.core)).toList := by
  unfold signed
  split
  · split
    · exact row_core hcuts rfl rfl
    · exact row_core hcuts rfl rfl
    · exact .nil (Nat.le_of_lt hcuts.nonempty)
  · exact h
  · exact .nil (Nat.le_of_lt hcuts.nonempty)

private theorem traced_literal (hcuts : Cuts text extent.core)
    (hrow : Row text SeenAt extent.core.start extent.core.stop (seen parts)) :
    Traced text extent.core.start extent.core.stop
      (literal (.ofText text) extent (parts.filterMap significantLeaf?)).toList := by
  unfold literal
  split
  · exact .nil hrow.le
  · rename_i own rest htokens
    have hmem : .leaf own ∈ parts := leaf_mem (htokens ▸ List.mem_cons_self)
    dsimp only
    split
    · rename_i hkind
      cases Number.integer? own.text.toList with
      | none => exact .nil hrow.le
      | some value => exact row_leaf hrow hmem (by rw [hkind]; rfl) ⟨rfl, nofun⟩
    · rename_i hkind
      cases Number.float? own.text.toList with
      | none => exact .nil hrow.le
      | some value => exact row_leaf hrow hmem (by rw [hkind]; rfl) ⟨rfl, nofun⟩
    · exact row_core hcuts rfl rfl
    · rename_i hkind
      exact row_leaf hrow hmem (by rw [hkind]; rfl) ⟨rfl, nofun⟩
    · rename_i hkind
      exact row_leaf hrow hmem (by rw [hkind]; rfl) ⟨rfl, nofun⟩
    · exact .nil hrow.le

variable (hparts : ∀ part ∈ parts, TracedPart text part)
  (hseen : ∀ part ∈ parts, part.isFolded = true → part.extent.first.isSome = true)
include hparts

private theorem traced_name {first last : Nat} (hrow : Row text SeenAt first last (seen parts)) :
    Traced text first last
      ((((parts.filterMap significantLeaf?).find? fun leaf => leaf.kind = .name).map
        (reference (.ofText text))).toList) := by
  cases hfound : (parts.filterMap significantLeaf?).find? fun leaf => leaf.kind = .name with
  | none => exact .nil hrow.le
  | some own =>
    have hmem := leaf_mem (List.mem_of_find?_eq_some hfound)
    have hfind := List.find?_some (p := fun leaf : Leaf => decide (leaf.kind = .name)) hfound
    have hkind : own.kind = .name := of_decide_eq_true hfind
    refine row_leaf hrow hmem (by rw [hkind]; rfl) ⟨rfl, fun name hname => ?_⟩
    cases hname
    exact hparts _ hmem hkind

include hseen

private theorem traced_chainParts {first last : Nat} (hrow : Row text SeenAt first last (seen parts))
    (hfits : (Shape.ofKind .chain).Fits (parts.filterMap piece?)) :
    Traced text first last
      (expr (.ofText text) (.chain extent (parts.filterMap expr?).head? (parts.filterMap trailer?))).toList := by
  obtain ⟨before, e, after, rfl, hexprs, htrailers⟩ := parts_of_chain hfits
  rw [hexprs, htrailers, List.head?_cons, expr, Traced, leavesAll_collapse]
  have hatom := hparts (.expr e) (by simp)
  -- The row of the parts is split at the atom: the trailers are in what is left of it.
  rw [seen, List.filter_append, List.filter_cons, if_pos (hseen (.expr e) (by simp) rfl)] at hrow
  obtain ⟨mid, hearly, hlate⟩ := hrow.split
  cases hlate with
  | cons hmid hcuts hspan hrest =>
    obtain rfl := hspan
    have hafter {part : Ast.Part} (hmem : part ∈ after) : part ∈ before ++ .expr e :: after :=
      List.mem_append_right _ (List.mem_cons_of_mem _ hmem)
    have hpicked : Row text (fun trailer span => trailer.extent.core = span) e.extent.core.stop last
        (after.filterMap trailer?) := by
      refine row_picked hrest (fun part trailer htrailer => ?_) fun part hmem trailer htrailer =>
        hseen part (hafter hmem) ?_
      all_goals
        cases part <;> cases htrailer
        rfl
    refine traced_chain ?_ hpicked fun trailer hmem => ?_
    · cases hfolded : expr (.ofText text) e <;> rw [TracedPart, hfolded] at hatom
      all_goals exact hatom.widen (Nat.le_trans hearly.le hmid) (Nat.le_refl _)
    · obtain ⟨part, hpart, htrailer⟩ := List.mem_filterMap.mp hmem
      have htraced := hparts part (hafter hpart)
      cases part <;> cases htrailer
      exact htraced

private theorem tracedPart_assemble {kind : NodeKind}
    (hfits : (Shape.ofKind kind).Fits (parts.filterMap piece?))
    (hnode : 0 < (Shape.ofKind kind).least Piece.isSolid →
      Cuts text extent.core ∧ Row text SeenAt extent.core.start extent.core.stop (seen parts)) :
    TracedPart text (assemble kind extent parts) := by
  cases kind
  case expressionStatement => exact traced_exprs hparts hseen (hnode (by decide)).2 (List.Sublist.refl _)
  case list | expressionList =>
    have hitems := traced_exprs hparts hseen (hnode (by decide)).2 (List.Sublist.refl _)
    change Traced text _ _ [.expression _]
    rwa [Traced, leavesAll_singleton, leaves]
  case name => exact traced_name hparts (hnode (by decide)).2
  case literal => exact traced_literal (hnode (by decide)).1 (hnode (by decide)).2
  case dictionary => exact row_core (hnode (by decide)).1 rfl rfl
  case chain => exact traced_chainParts hparts hseen (hnode (by decide)).2 hfits
  case parenthesized =>
    exact traced_optional hparts hseen (hnode (by decide)).2 fun _ => List.mem_of_mem_head?
  case unary =>
    obtain ⟨hcuts, hrow⟩ := hnode (by decide)
    have hoperand := traced_optional hparts hseen hrow fun _ => List.mem_of_mem_head?
    change Traced text _ _ (Option.bind _ _).toList
    cases hfolded : optional (.ofText text) (parts.filterMap Ast.Part.expr?).head? with
    | none => exact .nil hrow.le
    | some term =>
      rw [hfolded] at hoperand
      exact traced_signed hcuts hoperand
  case binary => exact traced_operands hparts hseen (hnode (by decide)).2
  case conditional | lambda | yield | comprehension => exact .nil (hnode (by decide)).2.le
  case arguments => exact traced_arguments hparts hseen (hnode (by decide)).2
  case «attribute» => exact traced_access hparts hseen (hnode (by decide)).2
  case argument =>
    exact traced_optional hparts hseen (hnode (by decide)).2 fun _ => List.mem_of_getLast?
  all_goals trivial

end Nodes

/-- What is read from a tree of the right shape folds to what comes from the tree. -/
theorem tracedPart_ofTree {text : List Char} {tree : Tree} (hformed : tree.Formed) {start : Nat}
    (h : Spelled text start tree.leaves) : TracedPart text (Ast.Part.ofTree start tree) := by
  induction hformed generalizing start with
  | token kind own =>
    rintro rfl
    exact h.identifier
  | @node kind children hfits hchildren ih =>
    have hpairwise := Ast.Part.pairwise_ofTrees start children
    have hpieces := hfits
    rw [← Ast.Part.pieces_ofTrees start] at hpieces
    rw [Ast.Part.ofTree]
    refine tracedPart_assemble (fun part hmem => ?_) (fun part hmem hfolded => ?_) hpieces fun hleast => ?_
    · obtain ⟨own, tree, htree, rfl, hspelled⟩ := h.exists_of_mem hmem
      exact ih tree htree hspelled
    · obtain ⟨own, tree, htree, rfl, -⟩ := h.exists_of_mem hmem
      exact Ast.Part.seen_of_formed (hchildren tree htree) hfolded
    · have hseen := Ast.Part.seen_ofTree start (.node kind children)
        (Tree.Formed.solid (.node hfits hchildren) hleast)
      have hcuts := Ast.Part.cuts_ofTree h hseen
      rw [Ast.Part.ofTree, Ast.Part.extent_assemble] at hseen hcuts
      exact ⟨hcuts, Ast.Part.row_extentOf hpairwise (Ast.Part.row_ofTrees h) hseen⟩

end Folding

end QuantumScript
