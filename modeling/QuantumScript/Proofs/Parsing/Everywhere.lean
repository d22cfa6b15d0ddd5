import QuantumScript.Proofs.Parsing.Derivations
/-!
# Laws of all nodes

A law of nodes that holds everywhere in a tree. If it is blind to blanks and comments then it can be shown
of bare trees, and taking tokens never breaks it.
-/

namespace QuantumScript

namespace Syntax

namespace Tree

/-- Every node in the tree obeys the law, which is on its kind and its children. -/
inductive Each (law : NodeKind → List Tree → Prop) : Tree → Prop
  | token (kind : TokenKind) (text : List Char) : Each law (.token kind text)
  | node {kind : NodeKind} {children : List Tree} (hlaw : law kind children)
      (hchildren : ∀ tree ∈ children, Each law tree) : Each law (.node kind children)

variable {law other : NodeKind → List Tree → Prop}

theorem Each.imp (himp : ∀ kind children, law kind children → other kind children) {tree : Tree}
    (h : tree.Each law) : tree.Each other := by
  induction h with
  | token kind text => exact .token kind text
  | node hlaw _ ih => exact .node (himp _ _ hlaw) ih

theorem Each.and {tree : Tree} (h : tree.Each law) (hother : tree.Each other) :
    tree.Each fun kind children => law kind children ∧ other kind children := by
  induction h with
  | token kind text => exact .token kind text
  | node hlaw _ ih =>
    obtain _ | ⟨hown, hchildren⟩ := hother
    exact .node ⟨hlaw, hown⟩ fun tree hmem => ih tree hmem (hchildren tree hmem)

/-- What holds of all leaves of the tree holds of those of every node. -/
theorem each_of_leaves {p : TokenKind × List Char → Prop} {tree : Tree} (h : ∀ leaf ∈ tree.leaves, p leaf) :
    tree.Each fun _ children => ∀ leaf ∈ leavesAll children, p leaf := by
  match tree with
  | .token kind text => exact .token kind text
  | .node kind children =>
    refine .node h fun tree hmem => each_of_leaves fun leaf hleaf => h leaf ?_
    obtain ⟨front, back, rfl⟩ := List.append_of_mem hmem
    rw [leaves, leavesAll_append, leavesAll]
    exact List.mem_append_right _ (List.mem_append_left _ hleaf)

mutual

private theorem bare_bare (tree : Tree) : tree.bare.bare = tree.bare := by
  match tree with
  | .token kind text => rfl
  | .node kind children => rw [bare, bare, bareAll_bareAll children]

theorem bareAll_bareAll (trees : List Tree) : bareAll (bareAll trees) = bareAll trees := by
  match trees with
  | [] => rfl
  | tree :: trees =>
    have hrest := bareAll_bareAll trees
    rw [bareAll]
    split
    · exact hrest
    · rename_i hsolid
      have htrivia : tree.bare.isTrivia = tree.isTrivia := by cases tree <;> rfl
      rw [bareAll, htrivia, if_neg hsolid, bare_bare tree, hrest]

end

theorem bare_mem_bareAll {tree : Tree} {trees : List Tree} (h : tree ∈ trees)
    (htrivia : tree.isTrivia = false) : tree.bare ∈ bareAll trees := by
  induction trees with
  | nil => cases h
  | cons first rest ih =>
    rw [bareAll]
    rcases List.mem_cons.mp h with rfl | h
    · rw [htrivia]
      exact List.mem_cons_self
    · split
      · exact ih h
      · exact List.mem_cons_of_mem _ (ih h)

/-- What holds everywhere in the bare tree holds of the nodes of the tree, blanks and comments aside. -/
theorem each_bare {tree : Tree} (h : tree.bare.Each law) :
    tree.Each fun kind children => law kind (bareAll children) := by
  generalize hbare : tree.bare = other at h
  induction h generalizing tree with
  | token kind text =>
    cases tree with
    | token => exact .token _ _
    | node => cases hbare
  | node hlaw _ ih =>
    cases tree with
    | token => cases hbare
    | node kind children =>
      cases hbare
      refine .node hlaw fun tree hmem => ?_
      cases htrivia : tree.isTrivia with
      | false => exact ih _ (bare_mem_bareAll hmem htrivia) rfl
      | true =>
        cases tree with
        | token => exact .token _ _
        | node => cases htrivia

/-- Blanks and comments do not matter to a law that is blind to them. -/
theorem each_of_bare (hblind : ∀ kind children, law kind (bareAll children) → law kind children)
    {tree : Tree} (h : tree.bare.Each law) : tree.Each law :=
  (each_bare h).imp hblind

end Tree

namespace Sketch

variable {law : NodeKind → List Tree → Prop} {sketch : Sketch}

theorem each_take (h : ∀ tree ∈ sketch.parts, tree.Each law) :
    ∀ tree ∈ sketch.take.parts, tree.Each law := by
  unfold take
  split
  · exact h
  · exact List.forall_mem_cons.mpr ⟨.token _ _, h⟩

theorem each_finishStatement (booked : Nat) (h : ∀ tree ∈ sketch.parts, tree.Each law) :
    ∀ tree ∈ (sketch.finishStatement booked).parts, tree.Each law := by
  have hskip (tokens : List Token) :
      ∀ tree ∈ (tokens.map Token.leaf).reverse ++ sketch.parts, tree.Each law := by
    refine List.forall_mem_append.mpr ⟨fun tree hmem => ?_, h⟩
    obtain ⟨token, _, rfl⟩ := List.mem_map.mp (List.mem_reverse.mp hmem)
    exact .token _ _
  unfold finishStatement
  split
  · exact h
  · split <;> exact hskip _

end Sketch

end Syntax

end QuantumScript
