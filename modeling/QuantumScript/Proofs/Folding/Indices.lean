import Mathlib
import QuantumScript.Proofs.Folding.Leaves
/-!
# Indices of elements

A subscript on a variable makes an element of it. The index is the first of the subscripts that is an integer
literal, perhaps signed or in parentheses. Only what such a literal folds to can be taken for one: an operation
of which one operand alone folds, a call or a subscript on a number, and the bounds of a slice.
-/

namespace QuantumScript

namespace Ast

/-- The value of a signed number. -/
def signedValue : Option Syntax.TokenKind → Int → Option Int
  | some (.symbol .minus), value => some (-value)
  | some (.symbol .plus), value => some value
  | _, _ => none

mutual

/-- The value of an integer literal, which may be signed or in parentheses. -/
def Expr.literalValue? : Expr → Option Int
  | .literal _ (leaf :: _) =>
    if leaf.kind = .integer then (Number.integer? leaf.text.toList).map Int.ofNat else none
  | .parenthesized _ inner => literalValueOf? inner
  | .unary _ operator operand => (literalValueOf? operand).bind (signedValue operator)
  | _ => none

def literalValueOf? : Option Expr → Option Int
  | none => none
  | some expr => expr.literalValue?

end

/-- The index, if the subscript is one and no slice: it is the whole subscript. -/
def Subscript.index? (subscript : Subscript) : Option Expr :=
  match subscript.parts with
  | [expr] => if expr.extent.core = subscript.extent.core then some expr else none
  | _ => none

private theorem Subscript.parts_of_index? {subscript : Subscript} {expr : Expr}
    (h : subscript.index? = some expr) :
    subscript.parts = [expr] := by
  unfold index? at h
  split at h
  · rename_i heq
    split at h
    · cases h
      exact heq
    · cases h
  · cases h

/-- The first of the subscripts that is an integer literal by itself. -/
def literalIndex? (subscripts : List Subscript) : Option Int :=
  subscripts.findSome? fun subscript => subscript.index?.bind Expr.literalValue?

/-- A name is accessed. -/
def Trailer.access? : Trailer → Option Leaf
  | .attribute _ name => name.bind Name.ident
  | _ => none

end Ast

namespace Folding

open Text (LineIndex)
open Ast

mutual

/-- No operation in the expression is an integer without being a literal: an operation has more or fewer than
one operand that folds, and a number is not called or subscripted. -/
def Firm (index : LineIndex) : Ast.Expr → Prop
  | .parenthesized _ inner => FirmOption index inner
  | .unary _ _ operand => FirmOption index operand
  | .binary _ _ left right => (operands index left ++ operands index right).length ≠ 1
  | .chain _ atom trailers =>
    (literalValueOf? atom = none ∧ FirmOption index atom) ∨ ∃ trailer ∈ trailers, trailer.access? ≠ none
  | _ => True

def FirmOption (index : LineIndex) : Option Ast.Expr → Prop
  | none => True
  | some e => Firm index e

end

/-- Whatever stands before the first literal index, or in all subscripts if there is none, is no integer. -/
def Settled (index : LineIndex) : List Subscript → Prop
  | [] => True
  | subscript :: rest =>
    subscript.index?.bind Expr.literalValue? ≠ none ∨
      (∀ part ∈ subscript.parts, part.literalValue? = none ∧ Firm index part) ∧ Settled index rest

section Integers

variable {index : LineIndex} {value : Int} {position : Position} {terms : List Term}

private theorem literal_integer (index : LineIndex) (extent : Extent) (leaf : Leaf) (tokens : List Leaf)
    (h : leaf.kind = .integer) :
    literal index extent (leaf :: tokens) = ((Number.integer? leaf.text.toList).map Int.ofNat).map fun value =>
      .integer value (index.position leaf.span) := by
  rw [literal, h]
  cases Number.integer? leaf.text.toList <;> rfl

private theorem literal_not_integer {extent : Extent} {leaf : Leaf} {tokens : List Leaf}
    (h : leaf.kind ≠ .integer) :
    literal index extent (leaf :: tokens) ≠ some (.integer value position) := by
  intro heq
  unfold literal at heq
  dsimp only at heq
  split at heq
  · rename_i hkind
    exact h hkind
  · obtain ⟨_, _, hterm⟩ := Option.map_eq_some_iff.mp heq
    cases hterm
  all_goals cases heq

private theorem collapse_eq_integer (h : collapse terms = some (.integer value position)) :
    terms = [.integer value position] := by
  unfold collapse at h
  split at h <;> cases h
  rfl

section Literals

mutual

private theorem expr_of_literalValue? (index : LineIndex) (expr : Ast.Expr) {value : Int}
    (h : expr.literalValue? = some value) :
    ∃ position, Folding.expr index expr = some (.integer value position) := by
  cases expr with
  | literal extent tokens =>
    cases tokens with
    | nil => cases h
    | cons leaf tokens =>
      rw [Expr.literalValue?] at h
      split at h
      · rename_i hkind
        exact ⟨index.position leaf.span, by rw [Folding.expr, literal_integer index extent leaf tokens hkind, h]; rfl⟩
      · cases h
  | parenthesized extent inner => exact optional_of_literalValue? index inner h
  | unary extent operator operand =>
    obtain ⟨inner, hinner, hsigned⟩ := Option.bind_eq_some_iff.mp h
    obtain ⟨position, hoperand⟩ := optional_of_literalValue? index operand hinner
    rw [Folding.expr, hoperand, Option.bind_some]
    unfold signedValue at hsigned
    split at hsigned
    all_goals cases hsigned
    · exact ⟨index.position extent.core, rfl⟩
    · exact ⟨position, rfl⟩
  | _ => cases h

private theorem optional_of_literalValue? (index : LineIndex) (expr : Option Ast.Expr) {value : Int}
    (h : literalValueOf? expr = some value) :
    ∃ position, Folding.optional index expr = some (.integer value position) := by
  cases expr with
  | none => cases h
  | some expr => exact expr_of_literalValue? index expr h

end

end Literals

/-- The term is an integer. -/
def IsInteger : Term → Prop
  | .integer _ _ => True
  | _ => False

private theorem length_applyCall (arguments terms : List Term) :
    (applyCall arguments terms).length = terms.length := by
  unfold applyCall
  split <;> rfl

private theorem length_applyIndex (indices terms : List Term) :
    (applyIndex indices terms).length = terms.length := by
  unfold applyIndex
  split <;> rfl

private theorem length_chain (index : LineIndex) (terms : List Term) (trailers : List Trailer) :
    (Folding.chain index terms trailers).length = (trailers.filterMap Trailer.access?).length + terms.length := by
  induction trailers generalizing terms with
  | nil => simp [Folding.chain]
  | cons trailer rest ih =>
    cases trailer with
    | «attribute» extent name =>
      rw [Folding.chain, ih, List.length_append, List.length_map, List.filterMap_cons, Trailer.access?]
      cases name.bind Name.ident with
      | none => simp
      | some leaf =>
        simp only [Option.toList_some, List.length_cons, List.length_nil]
        omega
    | arguments extent items => rw [Folding.chain, ih, length_applyCall]; rfl
    | subscripts extent items => rw [Folding.chain, ih, length_applyIndex]; rfl

private theorem chain_not_integer (trailers : List Trailer) (h : ∀ term ∈ terms, ¬IsInteger term) :
    ∀ term ∈ Folding.chain index terms trailers, ¬IsInteger term := by
  induction trailers generalizing terms with
  | nil => exact h
  | cons trailer rest ih =>
    cases trailer with
    | «attribute» extent name =>
      refine ih (List.forall_mem_append.mpr ⟨fun term hmem => ?_, h⟩)
      obtain ⟨leaf, _, rfl⟩ := List.mem_map.mp hmem
      exact id
    | arguments extent items =>
      refine ih ?_
      unfold applyCall
      split
      · exact List.forall_mem_cons.mpr ⟨id, (List.forall_mem_cons.mp h).2⟩
      · exact h
    | subscripts extent items =>
      refine ih ?_
      unfold applyIndex
      split
      · exact List.forall_mem_cons.mpr ⟨id, (List.forall_mem_cons.mp h).2⟩
      · exact h

private theorem chain_eq_integer {atom : Option Term} {trailers : List Trailer}
    (h : Folding.chain index atom.toList trailers = [.integer value position]) :
    trailers.filterMap Trailer.access? = [] ∧ ∃ value position, atom = some (.integer value position) := by
  have hinteger : ∃ term ∈ atom.toList, IsInteger term := by
    by_contra hnone
    have hall : ∀ term ∈ Folding.chain index atom.toList trailers, ¬IsInteger term :=
      chain_not_integer trailers fun term hmem hint => hnone ⟨term, hmem, hint⟩
    rw [h] at hall
    exact hall _ List.mem_cons_self trivial
  obtain ⟨term, hmem, hterm⟩ := hinteger
  obtain rfl : atom = some term := by simpa using hmem
  have hlength := congrArg List.length h
  rw [length_chain, Option.toList_some, List.length_singleton, List.length_singleton] at hlength
  refine ⟨List.eq_nil_of_length_eq_zero (by omega), ?_⟩
  cases term with
  | integer value position => exact ⟨value, position, rfl⟩
  | _ => cases hterm

section Firm

mutual

private theorem literalValue?_of_expr {index : LineIndex} (expr : Ast.Expr) (hfirm : Firm index expr)
    {value : Int}
    {position : Position} (h : Folding.expr index expr = some (.integer value position)) :
    expr.literalValue? = some value := by
  cases expr with
  | name name =>
    obtain ⟨leaf, _, hterm⟩ := Option.map_eq_some_iff.mp h
    cases hterm
  | literal extent tokens =>
    cases tokens with
    | nil => cases h
    | cons leaf tokens =>
      by_cases hkind : leaf.kind = .integer
      · rw [Folding.expr, literal_integer index extent leaf tokens hkind] at h
        obtain ⟨found, hfound, hterm⟩ := Option.map_eq_some_iff.mp h
        cases hterm
        rw [Expr.literalValue?, if_pos hkind, hfound]
      · exact absurd h (literal_not_integer hkind)
  | dictionary extent items => cases h
  | chain extent atom trailers =>
    cases atom with
    | none => cases h
    | some atom =>
      have hchain := List.reverse_eq_iff.mp (collapse_eq_integer h)
      obtain ⟨haccess, found, place, hatom⟩ := chain_eq_integer hchain
      rcases hfirm with ⟨hnone, hatomFirm⟩ | ⟨trailer, hmem, hsome⟩
      · have hvalue := literalValue?_of_expr atom hatomFirm hatom
        rw [literalValueOf?, hvalue] at hnone
        cases hnone
      · obtain ⟨leaf, hleaf⟩ := Option.ne_none_iff_exists'.mp hsome
        have hleafMem : leaf ∈ trailers.filterMap Trailer.access? := List.mem_filterMap.mpr ⟨trailer, hmem, hleaf⟩
        rw [haccess] at hleafMem
        cases hleafMem
  | parenthesized extent inner => exact literalValueOf?_of_optional inner hfirm h
  | unary extent operator operand =>
    obtain ⟨term, hterm, hsigned⟩ := Option.bind_eq_some_iff.mp h
    unfold signed at hsigned
    split at hsigned
    · split at hsigned
      all_goals cases hsigned
      rw [Expr.literalValue?, literalValueOf?_of_optional operand hfirm hterm]
      rfl
    · cases hsigned
      rw [Expr.literalValue?, literalValueOf?_of_optional operand hfirm hterm]
      rfl
    · cases hsigned
  | binary extent operator left right => exact absurd (congrArg List.length (collapse_eq_integer h)) hfirm
  | list extent items => cases h
  | expressionList extent items => cases h
  | conditional extent parts => cases h
  | lambda extent parameters body => cases h
  | yield extent value => cases h
  | comprehension extent elements clauses bracket keyed => cases h

private theorem literalValueOf?_of_optional {index : LineIndex} (expr : Option Ast.Expr)
    (hfirm : FirmOption index expr)
    {value : Int} {position : Position} (h : Folding.optional index expr = some (.integer value position)) :
    literalValueOf? expr = some value := by
  cases expr with
  | none => cases h
  | some expr => exact literalValue?_of_expr expr hfirm h

end

end Firm

end Integers

section Indices

variable {index : LineIndex}

theorem firstInteger_append (terms others : List Term) :
    firstInteger (terms ++ others) = (firstInteger terms).or (firstInteger others) :=
  List.findSome?_append

private theorem firstInteger_exprs_firm {parts : List Ast.Expr}
    (h : ∀ part ∈ parts, part.literalValue? = none ∧ Firm index part) :
    firstInteger (Folding.exprs index parts) = none := by
  induction parts with
  | nil => rfl
  | cons part rest ih =>
    obtain ⟨⟨hnone, hfirm⟩, hrest⟩ := List.forall_mem_cons.mp h
    rw [Folding.exprs, firstInteger_append, ih hrest, Option.or_none]
    cases hpart : Folding.expr index part with
    | none => rfl
    | some term =>
      cases term with
      | integer value position =>
        rw [literalValue?_of_expr part hfirm hpart] at hnone
        cases hnone
      | _ => rfl

private theorem firstInteger_subscripts {subscripts : List Subscript} (h : Settled index subscripts) :
    firstInteger (Folding.subscripts index subscripts) = literalIndex? subscripts := by
  induction subscripts with
  | nil => rfl
  | cons subscript rest ih =>
    have hsplit : literalIndex? (subscript :: rest) =
        (subscript.index?.bind Expr.literalValue?).or (literalIndex? rest) := by
      rw [literalIndex?, List.findSome?_cons, ← literalIndex?]
      cases subscript.index?.bind Expr.literalValue? <;> rfl
    have hfold : Folding.subscripts index (subscript :: rest) =
        Folding.exprs index subscript.parts ++ Folding.subscripts index rest := by
      obtain ⟨extent, parts⟩ := subscript
      rw [Folding.subscripts]
    rw [hsplit, hfold, firstInteger_append]
    rcases h with hliteral | ⟨hparts, hrest⟩
    · obtain ⟨value, hvalue⟩ := Option.ne_none_iff_exists'.mp hliteral
      obtain ⟨expr, hindex, hexpr⟩ := Option.bind_eq_some_iff.mp hvalue
      obtain ⟨position, hterm⟩ := expr_of_literalValue? index expr hexpr
      rw [hvalue, Subscript.parts_of_index? hindex, Folding.exprs, hterm]
      rfl
    · rw [firstInteger_exprs_firm hparts, ih hrest, Option.none_or]
      cases hindex : subscript.index? with
      | none => rfl
      | some expr =>
        have hmem : expr ∈ subscript.parts := by
          rw [Subscript.parts_of_index? hindex]
          exact List.mem_cons_self
        rw [Option.bind_some, (hparts expr hmem).1, Option.none_or]

end Indices

/-- A variable and the subscripts that are applied to it. -/
structure Application where
  name : String
  position : Position
  subscripts : List Subscript

/-- The variable that a term is. -/
def referred? : Term → Option (String × Position)
  | .reference name position => some (name, position)
  | _ => none

mutual

/-- The subscripts on variables in an expression, as far as it folds. A chain begins with a variable if its atom
folds to one, and each access goes on with the name that is accessed; a call and a subscript take the variable
away. -/
def applications (index : LineIndex) : Ast.Expr → List Application
  | .chain _ atom trailers =>
    match atom with
    | none => []
    | some atom =>
      applications index atom ++ trailed index ((Folding.expr index atom).bind referred?) trailers
  | .parenthesized _ inner => applicationsOf index inner
  | .unary _ operator operand =>
    if operator = some (.symbol .plus) then applicationsOf index operand else []
  | .binary _ _ left right => applicationsOf index left ++ applicationsOf index right
  | .list _ items => applicationsAll index items
  | .expressionList _ items => applicationsAll index items
  | _ => []

def applicationsOf (index : LineIndex) : Option Ast.Expr → List Application
  | none => []
  | some e => applications index e

def applicationsAll (index : LineIndex) : List Ast.Expr → List Application
  | [] => []
  | e :: es => applications index e ++ applicationsAll index es

/-- The subscripts in the trailers that follow, `current` being the variable that stands before them. -/
def trailed (index : LineIndex) (current : Option (String × Position)) : List Trailer → List Application
  | [] => []
  | .attribute _ name :: rest =>
    let accessed := (name.bind Name.ident).map fun leaf => (leaf.text, index.position leaf.span)
    trailed index (accessed.or current) rest
  | .arguments _ items :: rest =>
    (if current.isSome then passed index items else []) ++ trailed index none rest
  | .subscripts _ items :: rest =>
    current.toList.map (fun named => ⟨named.1, named.2, items⟩) ++ trailed index none rest

def passed (index : LineIndex) : List Argument → List Application
  | [] => []
  | ⟨_, _, _, value⟩ :: rest => applicationsOf index value ++ passed index rest

end

/-- The variable with the index that its subscripts select. -/
def Selects (index : LineIndex) (application : Application) (term : Term) : Prop :=
  ∃ value, term = .element application.name value application.position ∧
    (Settled index application.subscripts → value = (literalIndex? application.subscripts).getD 0)

/-- The elements in some terms, from left to right. -/
def elements (terms : List Term) : List Term :=
  (Term.leavesAll terms).filter fun
    | .element _ _ _ => true
    | _ => false

theorem elements_append (terms others : List Term) : elements (terms ++ others) = elements terms ++ elements others := by
  rw [elements, Term.leavesAll_append, List.filter_append, elements, elements]

private theorem elements_collapse (terms : List Term) : elements (collapse terms).toList = elements terms := by
  rw [elements, leavesAll_collapse, elements]

private theorem elements_of_leaves {term : Term} (hleaves : term.leaves = [term])
    (h : ∀ name value position, term ≠ .element name value position) : elements [term] = [] := by
  rw [elements, Term.leavesAll_singleton, hleaves]
  cases term with
  | element name value position => exact absurd rfl (h name value position)
  | _ => rfl

private theorem elements_reference (name : String) (position : Position) :
    elements [.reference name position] = [] :=
  elements_of_leaves rfl nofun

private theorem elements_methodCall (name : String) (arguments : List Term) (position : Position) :
    elements [.methodCall name arguments position] = elements arguments := by
  rw [elements, Term.leavesAll_singleton, Term.leaves, elements]
  rfl

private theorem elements_literal (index : LineIndex) (extent : Extent) (tokens : List Leaf) :
    elements (literal index extent tokens).toList = [] := by
  unfold literal
  split
  · rfl
  · split
    · cases Number.integer? _ <;> rfl
    · cases Number.float? _ <;> rfl
    all_goals rfl

private theorem elements_signed {operator : Option Syntax.TokenKind} (h : operator ≠ some (.symbol .plus))
    (term : Term)
    (position : Position) : elements (signed operator term position).toList = [] := by
  unfold signed
  split
  · split <;> rfl
  · exact absurd rfl h
  · rfl

private theorem elements_expression (terms : List Term) : elements [.expression terms] = elements terms := by
  rw [elements, Term.leavesAll_singleton, Term.leaves, elements]

section Applications

variable {index : LineIndex}

private theorem eq_reference_of_head {terms : List Term} {name : String} {position : Position}
    (h : terms.head?.bind referred? = some (name, position)) : ∃ rest, terms = .reference name position :: rest := by
  obtain ⟨term, hhead, hterm⟩ := Option.bind_eq_some_iff.mp h
  obtain ⟨rest, rfl⟩ := List.head?_eq_some_iff.mp hhead
  cases term with
  | reference found place =>
    cases hterm
    exact ⟨rest, rfl⟩
  | _ => cases hterm

private theorem applyCall_of_head {terms : List Term} (arguments : List Term)
    (h : terms.head?.bind referred? = none) :
    applyCall arguments terms = terms := by
  unfold applyCall
  split
  · cases h
  · rfl

private theorem applyIndex_of_head {terms : List Term} (indices : List Term)
    (h : terms.head?.bind referred? = none) :
    applyIndex indices terms = terms := by
  unfold applyIndex
  split
  · cases h
  · rfl

mutual

private theorem selects_expr (index : LineIndex) (expr : Ast.Expr) :
    List.Forall₂ (Selects index) (applications index expr) (elements (Folding.expr index expr).toList) := by
  cases expr with
  | name name =>
    obtain ⟨extent, ident⟩ := name
    cases ident <;> exact .nil
  | literal extent tokens =>
    rw [Folding.expr, elements_literal]
    exact .nil
  | dictionary extent items => exact .nil
  | chain extent atom trailers =>
    cases atom with
    | none => exact .nil
    | some atom =>
      rw [Folding.expr, elements_collapse]
      refine selects_chain index ?_ trailers ?_
      · have hatom := selects_expr index atom
        cases hterm : Folding.expr index atom <;> rwa [hterm] at hatom
      · cases Folding.expr index atom <;> rfl
  | parenthesized extent inner => exact selects_optional index inner
  | unary extent operator operand =>
    rw [Folding.expr, applications]
    split
    · rename_i hplus
      have hoperand := selects_optional index operand
      rw [hplus]
      cases hterm : Folding.optional index operand <;> rwa [hterm] at hoperand
    · rename_i hplus
      cases Folding.optional index operand with
      | none => exact .nil
      | some term =>
        rw [Option.bind_some, elements_signed hplus]
        exact .nil
  | binary extent operator left right =>
    rw [Folding.expr, elements_collapse, elements_append]
    exact List.rel_append (selects_operands index left) (selects_operands index right)
  | list extent items =>
    rw [Folding.expr, Option.toList_some, elements_expression]
    exact selects_exprs index items
  | expressionList extent items =>
    rw [Folding.expr, Option.toList_some, elements_expression]
    exact selects_exprs index items
  | conditional extent parts => exact .nil
  | lambda extent parameters body => exact .nil
  | yield extent value => exact .nil
  | comprehension extent elements clauses bracket keyed => exact .nil

private theorem selects_optional (index : LineIndex) (expr : Option Ast.Expr) :
    List.Forall₂ (Selects index) (applicationsOf index expr) (elements (Folding.optional index expr).toList) := by
  cases expr with
  | none => exact .nil
  | some expr => exact selects_expr index expr

private theorem selects_exprs (index : LineIndex) (exprs : List Ast.Expr) :
    List.Forall₂ (Selects index) (applicationsAll index exprs) (elements (Folding.exprs index exprs)) := by
  cases exprs with
  | nil => exact .nil
  | cons expr rest =>
    rw [Folding.exprs, elements_append]
    exact List.rel_append (selects_expr index expr) (selects_exprs index rest)

private theorem selects_operands (index : LineIndex) (operand : Option Ast.Expr) :
    List.Forall₂ (Selects index) (applicationsOf index operand) (elements (Folding.operands index operand)) := by
  cases operand with
  | none => exact .nil
  | some expr =>
    have hexpr := selects_expr index expr
    cases expr with
    | binary extent operator left right =>
      rw [Folding.operands, elements_append]
      exact List.rel_append (selects_operands index left) (selects_operands index right)
    | _ => exact hexpr

private theorem selects_chain (index : LineIndex) {before : List Application} {terms : List Term}
    {current : Option (String × Position)} (h : List.Forall₂ (Selects index) before (elements terms.reverse))
    (trailers : List Trailer) (hcurrent : terms.head?.bind referred? = current) :
    List.Forall₂ (Selects index) (before ++ trailed index current trailers)
      (elements (Folding.chain index terms trailers).reverse) := by
  cases trailers with
  | nil =>
    rw [trailed, List.append_nil]
    exact h
  | cons trailer rest =>
    cases trailer with
    | «attribute» extent name =>
      rw [Folding.chain, trailed]
      cases name.bind Name.ident with
      | none => exact selects_chain index h rest hcurrent
      | some leaf =>
        refine selects_chain index ?_ rest rfl
        rw [Option.toList_some, List.map_singleton, List.singleton_append, List.reverse_cons, elements_append,
          reference, elements_reference, List.append_nil]
        exact h
    | arguments extent items =>
      rw [Folding.chain, trailed]
      cases current with
      | none =>
        rw [applyCall_of_head _ hcurrent]
        exact selects_chain index h rest hcurrent
      | some named =>
        obtain ⟨others, rfl⟩ := eq_reference_of_head hcurrent
        rw [List.reverse_cons, elements_append, elements_reference, List.append_nil] at h
        rw [Option.isSome_some, if_pos rfl, ← List.append_assoc]
        refine selects_chain index ?_ rest rfl
        rw [applyCall, List.reverse_cons, elements_append, elements_methodCall]
        exact List.rel_append h (selects_arguments index items)
    | subscripts extent items =>
      rw [Folding.chain, trailed]
      cases current with
      | none =>
        rw [applyIndex_of_head _ hcurrent]
        exact selects_chain index h rest hcurrent
      | some named =>
        obtain ⟨others, rfl⟩ := eq_reference_of_head hcurrent
        rw [List.reverse_cons, elements_append, elements_reference, List.append_nil] at h
        rw [Option.toList_some, List.map_singleton, ← List.append_assoc]
        refine selects_chain index ?_ rest rfl
        rw [applyIndex, List.reverse_cons, elements_append]
        refine List.rel_append h (.cons ⟨_, rfl, fun hsettled => ?_⟩ .nil)
        rw [firstInteger_subscripts hsettled]

private theorem selects_arguments (index : LineIndex) (items : List Argument) :
    List.Forall₂ (Selects index) (passed index items) (elements (Folding.arguments index items)) := by
  cases items with
  | nil => exact .nil
  | cons item rest =>
    obtain ⟨extent, keyword, unpacked, value⟩ := item
    rw [Folding.arguments, elements_append]
    exact List.rel_append (selects_optional index value) (selects_arguments index rest)

end

theorem applicationsAll_append (index : LineIndex) (exprs others : List Ast.Expr) :
    applicationsAll index (exprs ++ others) = applicationsAll index exprs ++ applicationsAll index others := by
  induction exprs with
  | nil => rfl
  | cons expr rest ih => rw [List.cons_append, applicationsAll, ih, applicationsAll, List.append_assoc]

private theorem selects_assignment {targets : List Ast.Expr} {value term : Term} {after : List Application}
    (hvalue : List.Forall₂ (Selects index) after (elements [value]))
    (h : assignment index targets value = some term) :
    List.Forall₂ (Selects index) (applicationsAll index targets ++ after) (elements [term]) := by
  induction targets generalizing term with
  | nil =>
    cases h
    exact hvalue
  | cons target rest ih =>
    unfold assignment at h
    split at h
    · rename_i folded others htarget hothers
      cases h
      have hfirst := selects_expr index target
      rw [htarget] at hfirst
      have hsplit : elements [.assignment folded others] = elements [folded] ++ elements [others] := by
        simp [elements, Term.leaves]
      rw [applicationsAll, List.append_assoc, hsplit]
      exact List.rel_append hfirst (ih hothers)
    · cases h

/-- The subscripts on variables in a statement. -/
def applicationsIn (index : LineIndex) : Ast.Statement → List Application
  | .expressionStatement _ exprs _ _ _ => applicationsAll index exprs
  | _ => []

private theorem selects_statement {statement : Ast.Statement} {folded : FoldedStatement}
    (h : Folding.statement index statement = some folded) :
    List.Forall₂ (Selects index) (applicationsIn index statement) (elements [folded.term]) := by
  unfold Folding.statement at h
  split at h
  · rename_i extent exprs assigns augments hint
    split at h
    · rename_i value hlast
      obtain ⟨term, hterm, rfl⟩ := Option.map_eq_some_iff.mp h
      obtain ⟨last, hfolded, hassigned⟩ := Option.bind_eq_some_iff.mp hterm
      obtain ⟨targets, rfl⟩ := List.getLast?_eq_some_iff.mp hlast
      rw [List.dropLast_concat] at hfolded hassigned
      rw [applicationsIn, applicationsAll_append, applicationsAll, applicationsAll, List.append_nil]
      refine selects_assignment ?_ hassigned
      have hvalue := selects_expr index value
      split at hfolded
      · rwa [hfolded] at hvalue
      · cases hfolded
        cases hexpr : Folding.expr index value with
        | none =>
          rw [hexpr] at hvalue
          exact hvalue
        | some term => rwa [hexpr] at hvalue
    · cases h
  · cases h

end Applications

/-- Only a literal index is resolved, where no operation is taken for one. The elements of a folded statement
are the variables in it that subscripts are applied to, in their order and at their places. The index of each is
the first of its subscripts that is an integer literal, and zero if there is none, unless a bound of a slice
before that is an integer, or an expression that shrinks to one; and an expression shrinks to an integer only
if all operands of an operation but one do not fold, or if a number is called or subscripted. -/
theorem index_literal (index : LineIndex) :
    (∀ statement folded, Folding.statement index statement = some folded →
      List.Forall₂ (Selects index) (applicationsIn index statement) (elements [folded.term])) ∧
    (∀ expr value, Firm index expr →
      ((∃ position, Folding.expr index expr = some (.integer value position)) ↔ expr.literalValue? = some value)) :=
  ⟨fun _ _ => selects_statement, fun expr _ hfirm => ⟨fun ⟨_, h⟩ => literalValue?_of_expr expr hfirm h,
    expr_of_literalValue? index expr⟩⟩

/-- An operation of which one operand folds is taken for an index, as in `q[None + 1]`. -/
example (index : LineIndex) (extent : Extent) (span : Span) :
    Folding.expr index (.chain extent (some (.name ⟨extent, some ⟨.name, "q", span⟩⟩))
      [.subscripts extent [⟨extent, [.binary extent (some (.symbol .plus))
        (some (.literal extent [⟨.keyword .noneWord, "None", span⟩]))
        (some (.literal extent [⟨.integer, "1", span⟩]))]⟩]]) =
      some (.element "q" 1 (index.position span)) := by
  cbv

end Folding

end QuantumScript
