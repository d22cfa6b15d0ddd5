import QuantumScript.Proofs.Locating.Tokens
import QuantumScript.Proofs.Parsing.Complete
import QuantumScript.Proofs.Parsing.Trimmed
/-!
# First tokens of statements

Whatever the source, a statement is not empty and begins with a token that is seen. A compound statement is
read only where such a token comes next. A simple statement may be begun anywhere, but one that is no error
node has the shape of its kind, and so begins with its keyword or with the first token of an expression.
-/

namespace QuantumScript

namespace Syntax

namespace Shape

/-- The pieces with which the shape can begin. -/
def firsts : Shape → List Piece
  | .empty => []
  | .one own => own
  | .seq first second => first.firsts ++ if first.mayBeEmpty then second.firsts else []
  | .either first second => first.firsts ++ second.firsts
  | .many round => round.firsts

/-- Whatever makes the shape begins with a token that is seen. -/
def leads (shape : Shape) : Bool := !shape.mayBeEmpty && shape.firsts.all Piece.isSolid

theorem Fits.mayBeEmpty {shape : Shape} (h : shape.Fits []) : shape.mayBeEmpty = true := by
  induction shape with
  | empty | many => rfl
  | one own =>
    obtain ⟨piece, _, hnil⟩ := h
    cases hnil
  | seq first second ihfirst ihsecond =>
    obtain ⟨front, rest, hnil, hfront, hrest⟩ := h
    obtain ⟨rfl, rfl⟩ := List.append_eq_nil_iff.mp hnil.symm
    exact Bool.and_eq_true_iff.mpr ⟨ihfirst hfront, ihsecond hrest⟩
  | either first second ihfirst ihsecond =>
    exact Bool.or_eq_true_iff.mpr (h.imp ihfirst ihsecond)

private theorem Fits.mem_firsts {shape : Shape} {piece : Piece} {pieces : List Piece}
    (h : shape.Fits (piece :: pieces)) : piece ∈ shape.firsts := by
  induction shape generalizing pieces with
  | empty => cases h
  | one own =>
    obtain ⟨other, hmem, hother⟩ := h
    cases hother
    exact hmem
  | seq first second ihfirst ihsecond =>
    obtain ⟨front, rest, hpieces, hfront, hrest⟩ := h
    cases front with
    | nil =>
      obtain rfl := hpieces
      rw [firsts, if_pos hfront.mayBeEmpty]
      exact List.mem_append_right _ (ihsecond hrest)
    | cons other front =>
      cases hpieces
      exact List.mem_append_left _ (ihfirst hfront)
  | either first second ihfirst ihsecond =>
    rcases h with hfirst | hsecond
    · exact List.mem_append_left _ (ihfirst hfirst)
    · exact List.mem_append_right _ (ihsecond hsecond)
  | many round ih =>
    obtain ⟨rounds, hpieces, hrounds⟩ := h
    induction rounds with
    | nil => cases hpieces
    | cons front rounds ihrounds =>
      obtain ⟨hfront, hlater⟩ := List.forall_mem_cons.mp hrounds
      cases front with
      | nil => exact ihrounds hpieces hlater
      | cons other front =>
        cases hpieces
        exact ih hfront

private theorem Fits.exists_first {shape : Shape} {pieces : List Piece} (h : shape.Fits pieces)
    (hleads : shape.leads = true) : ∃ piece rest, pieces = piece :: rest ∧ piece.isSolid = true := by
  obtain ⟨hempty, hfirsts⟩ := Bool.and_eq_true_iff.mp hleads
  cases pieces with
  | nil =>
    rw [h.mayBeEmpty] at hempty
    cases hempty
  | cons piece rest => exact ⟨piece, rest, rfl, List.all_eq_true.mp hfirsts piece h.mem_firsts⟩

end Shape

/-- The token counts among the children of a node. -/
def TokenKind.counts (kind : TokenKind) : Bool := kind.piece?.isSome

private theorem TokenKind.counts_of_isSolid {kind : TokenKind} (h : kind.isSolid = true) :
    kind.counts = true := by
  cases kind <;> first | rfl | cases h

namespace Tree

/-- The first of the leaves that counts. -/
def opening (leaves : List (TokenKind × List Char)) : Option (TokenKind × List Char) :=
  leaves.find? fun leaf => leaf.1.counts

theorem opening_append (leaves others : List (TokenKind × List Char)) :
    opening (leaves ++ others) = (opening leaves).or (opening others) := List.find?_append

theorem opening_cons {leaf : TokenKind × List Char} (leaves : List (TokenKind × List Char))
    (h : leaf.1.counts = true) : opening (leaf :: leaves) = some leaf := List.find?_cons_of_pos h

/-- A node of the sort opens with a token that is seen. -/
def Opens (sort : NodeKind → Bool) (kind : NodeKind) (children : List Tree) : Prop :=
  sort kind = true → ∀ leaf ∈ opening (leavesAll children), leaf.1.isSolid = true

/-- No token comes first that does not count. -/
def Counted (leaves : List (TokenKind × List Char)) : Prop :=
  ∀ leaf ∈ leaves.head?, leaf.1.counts = true

/-- A token that is seen comes first. -/
def Begins (leaves : List (TokenKind × List Char)) : Prop :=
  ∃ leaf rest, leaves = leaf :: rest ∧ leaf.1.isSolid = true

theorem Counted.begins {leaves : List (TokenKind × List Char)} {leaf : TokenKind × List Char}
    (h : Counted leaves) (hopening : opening leaves = some leaf) (hsolid : leaf.1.isSolid = true) :
    Begins leaves := by
  cases leaves with
  | nil => cases hopening
  | cons first rest =>
    rw [opening_cons rest (h first rfl)] at hopening
    cases hopening
    exact ⟨_, rest, rfl, hsolid⟩

private theorem opening_none {trees : List Tree} (h : ∀ tree ∈ trees, tree.piece? = none) :
    opening (leavesAll trees) = none := by
  induction trees with
  | nil => rfl
  | cons tree trees ih =>
    obtain ⟨htree, htrees⟩ := List.forall_mem_cons.mp h
    rw [leavesAll, opening_append, ih htrees, Option.or_none]
    cases tree with
    | node kind children => cases htree
    | token kind text =>
      have hkind : kind.piece? = none := htree
      exact List.find?_cons_of_neg (by simp [TokenKind.counts, hkind])

private theorem opening_of_piece {front back : List Tree} {tree : Tree} {leaf : TokenKind × List Char}
    (hfront : ∀ tree ∈ front, tree.piece? = none) (htree : opening tree.leaves = some leaf) :
    opening (leavesAll (front ++ tree :: back)) = some leaf := by
  rw [leavesAll_append, opening_append, opening_none hfront, Option.none_or, leavesAll, opening_append, htree,
    Option.some_or]

mutual

private theorem opening_bare (tree : Tree) : opening tree.bare.leaves = opening tree.leaves := by
  match tree with
  | .token kind text => rfl
  | .node kind children => exact opening_bareAll children

private theorem opening_bareAll (trees : List Tree) :
    opening (leavesAll (bareAll trees)) = opening (leavesAll trees) := by
  match trees with
  | [] => rfl
  | tree :: trees =>
    have hrest := opening_bareAll trees
    have htrivia (h : tree.isTrivia = true) : opening tree.leaves = none := by
      have hnone : opening (leavesAll [tree]) = none :=
        opening_none (List.forall_mem_singleton.mpr (piece?_trivia h))
      rwa [leavesAll, leavesAll, List.append_nil] at hnone
    rw [bareAll, leavesAll, opening_append]
    split
    · rw [htrivia ‹_›, hrest, Option.none_or]
    · rw [leavesAll, opening_append, opening_bare tree, hrest]

end

/-- A node opens with a token that is seen if the shape that it has begins with one. -/
theorem Formed.opening {kind : NodeKind} {children : List Tree} (h : (Tree.node kind children).Formed)
    (hleads : (Shape.ofKind kind).leads = true) :
    ∃ leaf, Tree.opening (leavesAll children) = some leaf ∧ leaf.1.isSolid = true := by
  generalize htree : Tree.node kind children = tree at h
  induction h generalizing kind children with
  | token own text => cases htree
  | node hfits _ ih =>
    cases htree
    obtain ⟨piece, rest, hpieces, hsolid⟩ := hfits.exists_first hleads
    obtain ⟨front, tree, back, rfl, hfront, hpiece, -⟩ := List.filterMap_eq_cons_iff.mp hpieces
    suffices hopens : ∃ leaf, Tree.opening tree.leaves = some leaf ∧ leaf.1.isSolid = true by
      obtain ⟨leaf, hleaf, hseen⟩ := hopens
      exact ⟨leaf, opening_of_piece hfront hleaf, hseen⟩
    cases tree with
    | token own text =>
      have hown : own.isSolid = true := by
        rw [piece?, TokenKind.piece?] at hpiece
        split at hpiece <;> cases hpiece
        exact hsolid
      exact ⟨(own, text), opening_cons [] (TokenKind.counts_of_isSolid hown), hown⟩
    | node own grandchildren =>
      refine ih _ (List.mem_append_right _ List.mem_cons_self) ?_ rfl
      cases hpiece
      cases own <;> first | decide | cases hsolid

end Tree

namespace Script

variable {Rule : Type}

/-- The node may turn out to be a compound statement. -/
def mayBeCompound : Label → Bool
  | .always kind | .unlessComprehension kind => kind.isCompound
  | .definition => true

private theorem isCompound_resolve {label : Label} {children : List Tree}
    (h : (label.resolve children).isCompound = true) : mayBeCompound label = true := by
  cases label with
  | always kind => exact h
  | definition => rfl
  | unlessComprehension kind =>
    rw [Label.resolve] at h
    split at h
    · cases h
    · exact h

/-- Compound statements begin only where a token that is seen is demanded. `solid` tells that one comes
next. -/
def leads : Script Rule → Bool → Bool
  | .seq (.demand kinds) second, _ => leads second (kinds.all TokenKind.isSolid)
  | .seq first second, solid => leads first solid && leads second false
  | .cond test yes no, solid => leads test solid && leads yes false && leads no false
  | .node label body, solid => (!mayBeCompound label || solid) && leads body false
  | .wrap kind body, _ | .statement kind body, _ => !kind.isCompound && leads body false
  | .loop body, _ => leads body false
  | _, _ => true

private theorem leads_seq {first second : Script Rule} {solid : Bool}
    (h : leads (.seq first second) solid = true) :
    (∃ kinds, first = .demand kinds ∧ leads second (kinds.all TokenKind.isSolid) = true) ∨
      (leads first solid = true ∧ leads second false = true) := by
  cases first with
  | demand kinds => exact .inl ⟨kinds, rfl, h⟩
  | _ => exact .inr (Bool.and_eq_true_iff.mp h)

private theorem solid_of_taken {sketch after : Sketch}
    (h : ∃ taken, Sketch.Takes { sketch with parts := [] } after taken)
    (hsolid : sketch.current.isSolid = true) :
    ∀ leaf ∈ Tree.opening (Tree.leavesAll after.parts.reverse), leaf.1.isSolid = true := by
  obtain ⟨taken, htakes⟩ := h
  rw [htakes.leaves]
  cases taken with
  | nil => exact nofun
  | cons token taken =>
    have hrest : sketch.rest = token :: (taken ++ after.rest) := htakes.rest
    have htoken : token.entry.1.isSolid = true := by
      rw [Sketch.current, hrest] at hsolid
      exact hsolid
    intro leaf hmem
    rw [List.reverse_nil, Tree.leavesAll, List.nil_append, List.map_cons,
      Tree.opening_cons _ (TokenKind.counts_of_isSolid htoken)] at hmem
    cases hmem
    exact htoken

theorem Reads.opens {grammar : Rule → Script Rule} (hrules : ∀ rule, leads (grammar rule) false = true)
    {script : Script Rule} {sketch after : Sketch} {answer : Bool}
    (h : Reads grammar script sketch answer after) {solid : Bool} (hleads : leads script solid = true)
    (hsolid : solid = true → sketch.current.isSolid = true)
    (hparts : ∀ tree ∈ sketch.parts, tree.Each (Tree.Opens NodeKind.isCompound)) :
    ∀ tree ∈ after.parts, tree.Each (Tree.Opens NodeKind.isCompound) := by
  have hnone {current : TokenKind} (hfalse : false = true) : current.isSolid = true :=
    absurd hfalse Bool.false_ne_true
  induction h generalizing solid with
  | answer | demand | report | ask => exact hparts
  | bump | advance => exact Sketch.each_take hparts
  | call _ ih => exact ih (hrules _) hnone hparts
  | seq hfirst _ ihfirst ihsecond =>
    rcases leads_seq hleads with ⟨kinds, rfl, hlater⟩ | ⟨hnow, hlater⟩
    · cases hfirst with
      | demand hcurrent =>
        refine ihsecond hlater (fun hall => ?_) hparts
        exact List.all_eq_true.mp hall _ (List.contains_iff_mem.mp hcurrent)
    · exact ihsecond hlater hnone (ihfirst hnow hsolid hparts)
  | yes _ _ ihtest ihyes =>
    rw [leads, Bool.and_eq_true, Bool.and_eq_true] at hleads
    exact ihyes hleads.1.2 hnone (ihtest hleads.1.1 hsolid hparts)
  | no _ _ ihtest ihno =>
    rw [leads, Bool.and_eq_true, Bool.and_eq_true] at hleads
    exact ihno hleads.2 hnone (ihtest hleads.1.1 hsolid hparts)
  | node hbody ih =>
    rw [leads, Bool.and_eq_true, Bool.or_eq_true, Bool.not_eq_true'] at hleads
    refine List.forall_mem_cons.mpr ⟨.node (fun hcompound => ?_) fun tree hmem => ?_, hparts⟩
    · refine solid_of_taken hbody.takes (hsolid (hleads.1.resolve_left ?_))
      simp [isCompound_resolve hcompound]
    · exact ih hleads.2 hnone nofun tree (List.mem_reverse.mp hmem)
  | wrap _ ih =>
    rw [leads, Bool.and_eq_true, Bool.not_eq_true'] at hleads
    obtain ⟨hpart, hothers⟩ := List.forall_mem_cons.mp hparts
    refine List.forall_mem_cons.mpr ⟨.node (fun hcompound => ?_) fun tree hmem => ?_, hothers⟩
    · rw [hleads.1] at hcompound
      cases hcompound
    · exact ih hleads.2 hnone (List.forall_mem_singleton.mpr hpart) tree (List.mem_reverse.mp hmem)
  | statement _ hafter ih =>
    subst hafter
    rw [leads, Bool.and_eq_true, Bool.not_eq_true'] at hleads
    refine List.forall_mem_cons.mpr ⟨.node (fun hcompound => ?_) fun tree hmem => ?_, hparts⟩
    · split at hcompound
      · cases hcompound
      · rw [hleads.1] at hcompound
        cases hcompound
    · exact Sketch.each_finishStatement _ (ih hleads.2 hnone nofun) tree (List.mem_reverse.mp hmem)
  | stop _ ih => exact ih hleads hnone hparts
  | round _ _ _ ihbody ihloop =>
    exact ihloop (show leads (.loop _) false = true from hleads) hnone (ihbody hleads hnone hparts)

end Script

private theorem Rule.leads_grammar (rule : Rule) : Script.leads (grammar rule) false = true := by
  cases rule <;> decide

theorem Tree.Rooted.each {tree : Tree} (h : tree.Rooted) :
    tree.Each fun kind children =>
      kind.isPlaced = true → ∃ leaf ∈ leavesAll children, leaf.1.isSolid = true := by
  match tree with
  | .token kind text => exact .token kind text
  | .node kind children => exact .node h.1 fun tree hmem => Rooted.each (rootedAll_iff.mp h.2 tree hmem)

private theorem parse_opens (source : List Char) :
    (parse source).tree.Each (Tree.Opens NodeKind.isStatement) := by
  have hcompound : (parse source).tree.Each (Tree.Opens NodeKind.isCompound) := by
    obtain ⟨sketch, hread, hbare, -⟩ := parse_read source
    have hfile : Script.leads Production.file false = true := by decide
    have hsketch := (Script.reads_of_read hread).opens Rule.leads_grammar hfile nofun (List.forall_mem_nil _)
    apply Tree.each_of_bare
    · exact fun kind children h hcompound => Tree.opening_bareAll children ▸ h hcompound
    rw [hbare]
    exact .node nofun fun tree hmem => hsketch tree (List.mem_reverse.mp hmem)
  refine (hcompound.and (parse_settled source)).imp fun kind children h hstatement => ?_
  rcases Bool.or_eq_true_iff.mp hstatement with hkind | hkind
  · exact h.1 hkind
  · have hleads : (Shape.ofKind kind).leads = true := by
      cases kind <;> first | decide | cases hkind
    obtain ⟨leaf, hopening, hsolid⟩ := (h.2 hkind).opening hleads
    intro other hmem
    rw [hopening] at hmem
    cases hmem
    exact hsolid

/-- Whatever the source, no node below the root begins with a token that does not count. -/
theorem parse_counted (source : List Char) :
    ∀ tree ∈ (parseTokens (Token.ofText source)).parts,
      tree.Each fun _ children => Tree.Counted (Tree.leavesAll children) := by
  intro tree hmem
  have hends : ∀ leaf ∈ tree.leaves, leaf.1 ≠ .endOfInput := by
    intro leaf hleaf
    have hall : leaf ∈ Tree.leavesAll (parseTokens (Token.ofText source)).parts.reverse :=
      Tree.mem_leavesAll.mpr ⟨tree, List.mem_reverse.mpr hmem, hleaf⟩
    rw [leavesAll_parseTokens] at hall
    obtain ⟨token, htoken, rfl⟩ := List.mem_map.mp hall
    exact Token.kind_ne_end htoken
  refine ((trimmed_parseTokens _ tree hmem).and (Tree.each_of_leaves hends)).imp ?_
  intro kind children ⟨htrimmed, hends⟩ leaf hhead
  have htrivia := htrimmed leaf hhead
  have hend := hends leaf (List.mem_of_mem_head? hhead)
  simp [TokenKind.counts, TokenKind.piece?, htrivia, hend]

/-- Whatever the source, the statements below the root are not empty and begin with a token that is seen. -/
theorem parse_begins (source : List Char) :
    ∀ tree ∈ (parseTokens (Token.ofText source)).parts, tree.Each fun kind children =>
      kind.isStatement = true → Tree.Begins (Tree.leavesAll children) := by
  intro tree hmem
  have hbelow {law : NodeKind → List Tree → Prop} (h : (parse source).tree.Each law) : tree.Each law := by
    obtain _ | ⟨-, hchildren⟩ := h
    exact hchildren tree (List.mem_reverse.mpr hmem)
  refine ((parse_counted source tree hmem).and
    ((hbelow (parse_rooted source).each).and (hbelow (parse_opens source)))).imp ?_
  intro kind children ⟨hcounted, hrooted, hopens⟩ hstatement
  obtain ⟨leaf, hleaf, hsolid⟩ := hrooted (Bool.or_eq_true_iff.mpr (.inl hstatement))
  obtain ⟨first, hfirst⟩ : ∃ first, Tree.opening (Tree.leavesAll children) = some first :=
    Option.isSome_iff_exists.mp (List.find?_isSome.mpr ⟨leaf, hleaf, TokenKind.counts_of_isSolid hsolid⟩)
  exact hcounted.begins hfirst (hopens hstatement first hfirst)

end Syntax

end QuantumScript
