import QuantumScript.Folding
/-!
# Laws of folded terms

What folding makes terms of: names, literals, dictionaries, and the terms of the parts. A law that holds
wherever one of these is made holds of every term that an expression folds to.
-/

namespace QuantumScript

namespace Folding

open Text (LineIndex)

/-- The law is kept by all that makes a term of an expression. -/
structure Keeps (index : LineIndex) (law : Term → Prop) : Prop where
  reference (leaf : Ast.Leaf) : law (reference index leaf)
  literal {extent : Ast.Extent} {tokens : List Ast.Leaf} {term : Term} :
    literal index extent tokens = some term → law term
  dictionary (position : Position) : law (.dictionary position)
  expression {terms : List Term} : (∀ term ∈ terms, law term) → law (.expression terms)
  methodCall {arguments : List Term} (name : String) (position : Position) :
    (∀ term ∈ arguments, law term) → law (.methodCall name arguments position)
  element {indices : List Term} (name : String) (position : Position) :
    (∀ term ∈ indices, law term) → law (.element name ((firstInteger indices).getD 0) position)
  signed {operator : Option Syntax.TokenKind} {operand term : Term} {position : Position} :
    law operand → signed operator operand position = some term → law term

namespace Keeps

variable {index : LineIndex} {law : Term → Prop} {terms : List Term}

theorem collapse (h : Keeps index law) (hterms : ∀ term ∈ terms, law term) :
    ∀ term ∈ Folding.collapse terms, law term := by
  intro term hterm
  unfold Folding.collapse at hterm
  split at hterm
  · cases hterm
  · cases hterm
    exact hterms term List.mem_cons_self
  · cases hterm
    exact h.expression hterms

theorem applyCall (h : Keeps index law) {arguments : List Term} (harguments : ∀ term ∈ arguments, law term)
    (hterms : ∀ term ∈ terms, law term) : ∀ term ∈ Folding.applyCall arguments terms, law term := by
  unfold Folding.applyCall
  split
  · rw [List.forall_mem_cons] at hterms ⊢
    exact ⟨h.methodCall _ _ harguments, hterms.2⟩
  · exact hterms

theorem applyIndex (h : Keeps index law) {indices : List Term} (hindices : ∀ term ∈ indices, law term)
    (hterms : ∀ term ∈ terms, law term) : ∀ term ∈ Folding.applyIndex indices terms, law term := by
  unfold Folding.applyIndex
  split
  · rw [List.forall_mem_cons] at hterms ⊢
    exact ⟨h.element _ _ hindices, hterms.2⟩
  · exact hterms

mutual

theorem expr (h : Keeps index law) (e : Ast.Expr) : ∀ term ∈ Folding.expr index e, law term := by
  cases e with
  | name name =>
    intro term hterm
    obtain ⟨leaf, _, rfl⟩ := Option.map_eq_some_iff.mp hterm
    exact h.reference leaf
  | literal extent tokens => exact fun term => h.literal
  | dictionary extent items =>
    intro term hterm
    cases hterm
    exact h.dictionary _
  | chain extent atom trailers =>
    cases atom with
    | none => exact nofun
    | some atom =>
      have htrailers : ∀ term ∈ Folding.chain index (Folding.expr index atom).toList trailers, law term :=
        chain h (by simpa using expr h atom) trailers
      exact h.collapse (by simpa using htrailers)
  | parenthesized extent inner => exact optional h inner
  | unary extent operator operand =>
    intro term hterm
    obtain ⟨folded, hfolded, hsigned⟩ := Option.bind_eq_some_iff.mp hterm
    exact h.signed (optional h operand folded hfolded) hsigned
  | binary extent operator left right =>
    exact h.collapse (List.forall_mem_append.mpr ⟨operands h left, operands h right⟩)
  | list extent items | expressionList extent items =>
    intro term hterm
    cases hterm
    exact h.expression (exprs h items)
  | conditional extent parts => exact nofun
  | lambda extent parameters body => exact nofun
  | yield extent value => exact nofun
  | comprehension extent elements clauses bracket keyed => exact nofun

theorem optional (h : Keeps index law) (e : Option Ast.Expr) :
    ∀ term ∈ Folding.optional index e, law term := by
  cases e with
  | none => exact nofun
  | some e => exact expr h e

theorem exprs (h : Keeps index law) (es : List Ast.Expr) : ∀ term ∈ Folding.exprs index es, law term := by
  cases es with
  | nil => exact nofun
  | cons e rest =>
    rw [Folding.exprs, List.forall_mem_append]
    exact ⟨by simpa using expr h e, exprs h rest⟩

theorem operands (h : Keeps index law) (operand : Option Ast.Expr) :
    ∀ term ∈ Folding.operands index operand, law term := by
  cases operand with
  | none => exact nofun
  | some e =>
    have hexpr : ∀ term ∈ (Folding.expr index e).toList, law term := by simpa using expr h e
    cases e with
    | binary extent operator left right =>
      exact List.forall_mem_append.mpr ⟨operands h left, operands h right⟩
    | _ => exact hexpr

theorem chain (h : Keeps index law) {terms : List Term} (hterms : ∀ term ∈ terms, law term)
    (trailers : List Ast.Trailer) : ∀ term ∈ Folding.chain index terms trailers, law term := by
  cases trailers with
  | nil => exact hterms
  | cons trailer rest =>
    cases trailer with
    | «attribute» extent name =>
      refine chain h (List.forall_mem_append.mpr ⟨fun term hterm => ?_, hterms⟩) rest
      obtain ⟨leaf, _, rfl⟩ := List.mem_map.mp hterm
      exact h.reference leaf
    | arguments extent items => exact chain h (h.applyCall (arguments h items) hterms) rest
    | subscripts extent items => exact chain h (h.applyIndex (subscripts h items) hterms) rest

theorem arguments (h : Keeps index law) (items : List Ast.Argument) :
    ∀ term ∈ Folding.arguments index items, law term := by
  cases items with
  | nil => exact nofun
  | cons item rest =>
    obtain ⟨extent, keyword, unpacked, value⟩ := item
    rw [Folding.arguments, List.forall_mem_append]
    exact ⟨by simpa using optional h value, arguments h rest⟩

theorem subscripts (h : Keeps index law) (items : List Ast.Subscript) :
    ∀ term ∈ Folding.subscripts index items, law term := by
  cases items with
  | nil => exact nofun
  | cons item rest =>
    obtain ⟨extent, parts⟩ := item
    rw [Folding.subscripts, List.forall_mem_append]
    exact ⟨exprs h parts, subscripts h rest⟩

end

end Keeps

end Folding

end QuantumScript
