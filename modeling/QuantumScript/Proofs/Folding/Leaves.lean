import QuantumScript.Folding
/-!
# Leaves of folded terms

A term is listed from left to right by its leaves: the names, calls, elements, dictionaries and literals in
it. A call stands before the leaves of its arguments. Putting terms together neither adds a leaf nor takes
one away.
-/

namespace QuantumScript

namespace Term

mutual

/-- The leaves of a term, a call before those of its arguments. -/
def leaves : Term → List Term
  | .assignment target value => leaves target ++ leaves value
  | .expression terms => leavesAll terms
  | .methodCall name arguments position => .methodCall name arguments position :: leavesAll arguments
  | .reference name position => [.reference name position]
  | .element name index position => [.element name index position]
  | .dictionary position => [.dictionary position]
  | .integer value position => [.integer value position]
  | .float value position => [.float value position]
  | .text value position => [.text value position]
  | .boolean value position => [.boolean value position]

def leavesAll : List Term → List Term
  | [] => []
  | term :: terms => leaves term ++ leavesAll terms

end

@[simp] theorem leavesAll_append (terms others : List Term) :
    leavesAll (terms ++ others) = leavesAll terms ++ leavesAll others := by
  induction terms with
  | nil => rfl
  | cons term terms ih => rw [List.cons_append, leavesAll, ih, leavesAll, List.append_assoc]

@[simp] theorem leavesAll_singleton (term : Term) : leavesAll [term] = leaves term := by
  rw [leavesAll, leavesAll, List.append_nil]

theorem mem_leavesAll {leaf : Term} {terms : List Term} :
    leaf ∈ leavesAll terms ↔ ∃ term ∈ terms, leaf ∈ term.leaves := by
  induction terms with
  | nil => simp [leavesAll]
  | cons term terms ih => simp [leavesAll, ih]

end Term

namespace Folding

open Term

@[simp] theorem leavesAll_collapse (terms : List Term) :
    leavesAll (collapse terms).toList = leavesAll terms := by
  cases terms with
  | nil => rfl
  | cons first rest =>
    cases rest with
    | nil => rfl
    | cons second rest =>
      exact leavesAll_singleton (.expression (first :: second :: rest))

end Folding

end QuantumScript
