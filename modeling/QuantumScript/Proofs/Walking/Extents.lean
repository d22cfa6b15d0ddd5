import QuantumScript.Proofs.Parsing.Rooted
import QuantumScript.Proofs.Seams.Moving
import QuantumScript.Proofs.Seams.Places
import QuantumScript.Proofs.Walking.Statements
/-!
# Lines of a script

Parts of a script stand inside the part they belong to, from the start of the first token to the end
of the last token that is seen. So the lines of its statements nest, and a walk of the script keeps to
the lines of the script.
-/

namespace QuantumScript

theorem Text.LineIndex.line_mono (index : LineIndex) {offset later : Nat} (h : offset ≤ later) :
    index.line offset ≤ index.line later := by
  have hlength : (index.upTo offset).length ≤ (index.upTo later).length := by
    unfold upTo
    induction index.lines with
    | nil => exact Nat.le_refl 0
    | cons line rest ih =>
      by_cases hline : line.start ≤ offset
      · rw [List.takeWhile_cons_of_pos (by simpa using hline),
          List.takeWhile_cons_of_pos (by simpa using Nat.le_trans hline h)]
        exact Nat.succ_le_succ ih
      · rw [List.takeWhile_cons_of_neg (by simpa using hline)]
        exact Nat.zero_le _
  rw [line_eq, line_eq]
  omega

theorem Text.LineIndex.line_le (index : LineIndex) (offset : Nat) :
    index.line offset ≤ max 1 index.lines.length := by
  have hlength : (index.upTo offset).length ≤ index.lines.length := (List.takeWhile_sublist _).length_le
  rw [line_eq]
  omega

namespace Ast

open Syntax

/-- The part stands between the two offsets. -/
structure Extent.Within (extent : Extent) (first last : Nat) : Prop where
  first_le : first ≤ extent.span.start
  start_le : extent.span.start ≤ extent.last
  last_le : extent.last ≤ extent.span.stop
  stop_le : extent.span.stop ≤ last

theorem Extent.Within.mono {extent : Extent} {first last earlier later : Nat}
    (h : extent.Within first last) (hfirst : earlier ≤ first) (hlast : last ≤ later) :
    extent.Within earlier later :=
  ⟨Nat.le_trans hfirst h.first_le, h.start_le, h.last_le, Nat.le_trans h.stop_le hlast⟩

namespace Part

theorem start_ofTree (start : Nat) (tree : Tree) : (ofTree start tree).extent.span.start = start := by
  cases tree with
  | token kind text => rfl
  | node kind children =>
    rw [ofTree, extent_assemble]
    rfl

private theorem within_extentOf {start last : Nat} {parts : List Part}
    (h : ∀ part ∈ parts, part.extent.Within start last)
    (hstop : (extentOf start parts).span.stop = last) (hle : start ≤ last) :
    (extentOf start parts).Within start last := by
  have hlast : start ≤ (extentOf start parts).last ∧ (extentOf start parts).last ≤ last := by
    change start ≤ Option.getD _ (extentOf start parts).span.stop ∧
      Option.getD _ (extentOf start parts).span.stop ≤ last
    rw [hstop]
    cases hpart : (parts.filter fun part => part.extent.first.isSome).getLast? with
    | none => exact ⟨hle, Nat.le_refl last⟩
    | some part =>
      have hwithin := h part (List.mem_filter.mp (List.mem_of_getLast? hpart)).1
      exact ⟨Nat.le_trans hwithin.first_le hwithin.start_le,
        Nat.le_trans hwithin.last_le hwithin.stop_le⟩
  exact ⟨Nat.le_refl start, hlast.1, hstop ▸ hlast.2, Nat.le_of_eq hstop⟩

mutual

theorem within_ofTree (start : Nat) (tree : Tree) :
    (ofTree start tree).extent.Within start (start + tree.byteLength) := by
  match tree with
  | .token kind text =>
    constructor <;> simp [ofTree, extent, leafExtent, Tree.byteLength]
  | .node kind children =>
    rw [ofTree, extent_assemble]
    exact within_extentOf (within_ofTrees start children) (stop_ofTrees start children)
      (Nat.le_add_right _ _)

theorem within_ofTrees (start : Nat) (trees : List Tree) :
    ∀ part ∈ ofTrees start trees, part.extent.Within start (start + Tree.byteLengthAll trees) := by
  match trees with
  | [] =>
    intro part hmem
    rw [ofTrees] at hmem
    cases hmem
  | tree :: trees =>
    have hfirst := within_ofTree start tree
    have hrest := within_ofTrees (start + tree.byteLength) trees
    rw [ofTrees_cons, Tree.byteLengthAll, ← Nat.add_assoc]
    refine List.forall_mem_cons.mpr ⟨hfirst.mono (Nat.le_refl _) (Nat.le_add_right _ _), ?_⟩
    exact fun part hmem => (hrest part hmem).mono (Nat.le_add_right _ _) (Nat.le_refl _)

end

/-- Parts next to each other end one after the other. -/
theorem pairwise_ofTrees (start : Nat) (trees : List Tree) :
    (ofTrees start trees).Pairwise fun part other => part.extent.last ≤ other.extent.last := by
  induction trees generalizing start with
  | nil => exact List.Pairwise.nil
  | cons tree trees ih =>
    rw [ofTrees_cons]
    refine List.pairwise_cons.mpr ⟨?_, ih _⟩
    intro part hmem
    have hfirst := within_ofTree start tree
    have hpart := within_ofTrees _ trees part hmem
    have hbetween := hpart.first_le
    exact Nat.le_trans (Nat.le_trans hfirst.last_le hfirst.stop_le)
      (Nat.le_trans hbetween hpart.start_le)

/-- What is made of parts is seen if one of them is, and ends no earlier than this one. -/
theorem extentOf_of_mem {start : Nat} {parts : List Part}
    (hpairwise : parts.Pairwise fun part other => part.extent.last ≤ other.extent.last)
    {part : Part} (hmem : part ∈ parts) (hseen : part.extent.first.isSome = true) :
    (extentOf start parts).first.isSome = true ∧ part.extent.last ≤ (extentOf start parts).last := by
  have hfilter : part ∈ parts.filter fun part => part.extent.first.isSome :=
    List.mem_filter.mpr ⟨hmem, hseen⟩
  have hsorted := hpairwise.filter fun part => part.extent.first.isSome
  constructor
  · change (Option.bind _ _).isSome = true
    cases hhead : (parts.filter fun part => part.extent.first.isSome).head? with
    | none =>
      rw [List.head?_eq_none_iff.mp hhead] at hfilter
      cases hfilter
    | some first => exact (List.mem_filter.mp (List.mem_of_mem_head? hhead)).2
  · change part.extent.last ≤ Option.getD _ _
    cases hlast : (parts.filter fun part => part.extent.first.isSome).getLast? with
    | none =>
      rw [List.getLast?_eq_none_iff.mp hlast] at hfilter
      cases hfilter
    | some last =>
      obtain ⟨front, hfront⟩ := List.getLast?_eq_some_iff.mp hlast
      rw [hfront] at hfilter hsorted
      rcases List.mem_append.mp hfilter with hearly | hlate
      · exact (List.pairwise_append.mp hsorted).2.2 part hearly last (List.mem_singleton_self last)
      · rw [List.mem_singleton.mp hlate]
        exact Nat.le_refl _

mutual

/-- A part with a token that is seen is seen. -/
theorem seen_ofTree (start : Nat) (tree : Tree)
    (h : ∃ leaf ∈ tree.leaves, leaf.1.isSolid = true) :
    (ofTree start tree).extent.first.isSome = true := by
  match tree with
  | .token kind text =>
    obtain ⟨leaf, hmem, hsolid⟩ := h
    rw [Tree.leaves, List.mem_singleton] at hmem
    subst hmem
    rw [TokenKind.isSolid, Bool.and_eq_true, Bool.not_eq_true'] at hsolid
    have hlayout : isLayout kind = false := hsolid.1
    simp [ofTree, extent, leafExtent, hlayout]
  | .node kind children =>
    rw [ofTree, extent_assemble]
    obtain ⟨part, hmem, hseen⟩ := seen_ofTrees start children h
    exact (extentOf_of_mem (pairwise_ofTrees start children) hmem hseen).1

theorem seen_ofTrees (start : Nat) (trees : List Tree)
    (h : ∃ leaf ∈ Tree.leavesAll trees, leaf.1.isSolid = true) :
    ∃ part ∈ ofTrees start trees, part.extent.first.isSome = true := by
  match trees with
  | [] =>
    obtain ⟨leaf, hmem, _⟩ := h
    cases hmem
  | tree :: trees =>
    rw [ofTrees_cons]
    obtain ⟨leaf, hmem, hsolid⟩ := h
    rcases List.mem_append.mp hmem with hmem | hmem
    · exact ⟨_, List.mem_cons_self, seen_ofTree start tree ⟨leaf, hmem, hsolid⟩⟩
    · obtain ⟨part, hpart, hseen⟩ := seen_ofTrees (start + tree.byteLength) trees ⟨leaf, hmem, hsolid⟩
      exact ⟨part, List.mem_cons_of_mem _ hpart, hseen⟩

end

end Part

theorem Extent.stop_core {extent : Extent} (h : extent.first.isSome = true) :
    extent.core.stop = extent.last := by
  obtain ⟨leaf, hleaf⟩ := Option.isSome_iff_exists.mp h
  rw [core, hleaf]

end Ast

namespace Inference

open Ast.Part Syntax

/-- All statements in the part are on lines of the region. -/
def Region.BoundsPart (index : Text.LineIndex) (region : Region) : Ast.Part → Prop
  | .statement part => region.Bounds index part
  | .suite part => region.BoundsSuite index (some part)
  | .branch part => region.BoundsBranches index [part]
  | .handler part => region.BoundsHandlers index [part]
  | .block _ part => region.BoundsBlock index (some part)
  | .script part => region.BoundsAll index part.statements
  | _ => True

section Picks

variable {index : Text.LineIndex} {region : Region} {parts : List Ast.Part}

private theorem boundsAll_statements (h : ∀ part ∈ parts, region.BoundsPart index part) :
    region.BoundsAll index (parts.filterMap statement?) := by
  induction parts with
  | nil => trivial
  | cons part rest ih =>
    obtain ⟨hpart, hrest⟩ := List.forall_mem_cons.mp h
    cases part with
    | statement part => exact ⟨hpart, ih hrest⟩
    | _ => exact ih hrest

private theorem boundsBranches_branches (h : ∀ part ∈ parts, region.BoundsPart index part) :
    region.BoundsBranches index (parts.filterMap branch?) := by
  induction parts with
  | nil => trivial
  | cons part rest ih =>
    obtain ⟨hpart, hrest⟩ := List.forall_mem_cons.mp h
    cases part with
    | branch part =>
      obtain ⟨_, _, _⟩ := part
      exact ⟨hpart.1, ih hrest⟩
    | _ => exact ih hrest

private theorem boundsHandlers_handlers (h : ∀ part ∈ parts, region.BoundsPart index part) :
    region.BoundsHandlers index (parts.filterMap handler?) := by
  induction parts with
  | nil => trivial
  | cons part rest ih =>
    obtain ⟨hpart, hrest⟩ := List.forall_mem_cons.mp h
    cases part with
    | handler part =>
      obtain ⟨_, _, _, _⟩ := part
      exact ⟨hpart.1, hpart.2.1, ih hrest⟩
    | _ => exact ih hrest

private theorem boundsSuite_suite (h : ∀ part ∈ parts, region.BoundsPart index part) :
    region.BoundsSuite index (parts.findSome? suite?) := by
  induction parts with
  | nil => trivial
  | cons part rest ih =>
    obtain ⟨hpart, hrest⟩ := List.forall_mem_cons.mp h
    cases part with
    | suite part => exact hpart
    | _ => exact ih hrest

private theorem boundsBlock_block (kind : NodeKind) (h : ∀ part ∈ parts, region.BoundsPart index part) :
    region.BoundsBlock index (parts.findSome? (block? kind)) := by
  induction parts with
  | nil => trivial
  | cons part rest ih =>
    obtain ⟨hpart, hrest⟩ := List.forall_mem_cons.mp h
    cases part with
    | block own part =>
      rw [List.findSome?_cons, block?]
      by_cases hkind : own = kind
      · rw [if_pos hkind]
        exact hpart
      · rw [if_neg hkind]
        exact ih hrest
    | _ => exact ih hrest

/-- What is made of parts is in the region if the parts are, where those of a definition are on lines of
the definition. -/
private theorem boundsPart_assemble {kind : NodeKind} {extent : Ast.Extent}
    (h : ∀ part ∈ parts, region.BoundsPart index part)
    (hplaced : kind.isPlaced = true →
      region.Holds (index.firstLine extent) (index.lastLine extent) ∧
        ∀ part ∈ parts, (region.narrow (index.firstLine extent)
          (index.lastLine extent)).BoundsPart index part) :
    region.BoundsPart index (assemble kind extent parts) := by
  cases kind
  case file | suite => exact boundsAll_statements h
  case function | classDefinition =>
    obtain ⟨hholds, hinner⟩ := hplaced rfl
    exact ⟨hholds, boundsSuite_suite hinner⟩
  case ifStatement =>
    exact ⟨(hplaced rfl).1.has, boundsSuite_suite h, boundsBranches_branches h, boundsBlock_block _ h⟩
  case whileStatement | forStatement =>
    exact ⟨(hplaced rfl).1.has, boundsSuite_suite h, boundsBlock_block _ h⟩
  case withStatement => exact ⟨(hplaced rfl).1.has, boundsSuite_suite h⟩
  case tryStatement =>
    exact ⟨(hplaced rfl).1.has, boundsSuite_suite h, boundsHandlers_handlers h,
      boundsBlock_block _ h, boundsBlock_block _ h⟩
  case exceptClause => exact ⟨(hplaced rfl).1.has, boundsSuite_suite h, trivial⟩
  case elifClause => exact ⟨boundsSuite_suite h, trivial⟩
  case elseClause | finallyClause => exact boundsSuite_suite h
  all_goals first | trivial | exact (hplaced rfl).1.has

end Picks

mutual

/-- The statements of a rooted tree are on the lines from the start of the tree to the end of its last
token that is seen. -/
theorem boundsPart_ofTree (index : Text.LineIndex) (start : Nat) (tree : Tree) (h : tree.Rooted)
    {first last : Nat} (hfirst : first ≤ index.line start)
    (hlast : (ofTree start tree).extent.first.isSome = true →
      index.line (ofTree start tree).extent.last ≤ last) :
    (Region.between first last).BoundsPart index (ofTree start tree) := by
  match tree with
  | .token kind text => trivial
  | .node kind children =>
    rw [ofTree, extent_assemble] at hlast
    rw [ofTree]
    have hchildren {first last : Nat} (hfirst : first ≤ index.line start)
        (hlast : (extentOf start (ofTrees start children)).first.isSome = true →
          index.line (extentOf start (ofTrees start children)).last ≤ last) :
        ∀ part ∈ ofTrees start children, (Region.between first last).BoundsPart index part := by
      refine boundsPart_ofTrees index start children h.2 hfirst ?_
      intro part hmem hseen
      obtain ⟨hnode, hle⟩ := extentOf_of_mem (pairwise_ofTrees start children) hmem hseen
      exact Nat.le_trans (index.line_mono hle) (hlast hnode)
    refine boundsPart_assemble (hchildren hfirst hlast) ?_
    intro hplaced
    obtain ⟨part, hmem, hseen⟩ := seen_ofTrees start children (h.1 hplaced)
    have hnode : (extentOf start (ofTrees start children)).first.isSome = true :=
      (extentOf_of_mem (pairwise_ofTrees start children) hmem hseen).1
    have hwithin := within_extentOf (within_ofTrees start children) (stop_ofTrees start children)
      (Nat.le_add_right _ _)
    have hstop := Ast.Extent.stop_core hnode
    refine ⟨⟨hfirst, ?_, ?_⟩, hchildren (Nat.le_refl _) fun _ => ?_⟩
    · rw [Text.LineIndex.lastLine, hstop]
      exact index.line_mono hwithin.start_le
    · rw [Text.LineIndex.lastLine, hstop]
      exact hlast hnode
    · rw [Text.LineIndex.lastLine, hstop]

private theorem boundsPart_ofTrees (index : Text.LineIndex) (start : Nat) (trees : List Tree)
    (h : Tree.RootedAll trees) {first last : Nat} (hfirst : first ≤ index.line start)
    (hlast : ∀ part ∈ ofTrees start trees, part.extent.first.isSome = true →
      index.line part.extent.last ≤ last) :
    ∀ part ∈ ofTrees start trees, (Region.between first last).BoundsPart index part := by
  match trees with
  | [] =>
    intro part hmem
    rw [ofTrees] at hmem
    cases hmem
  | tree :: trees =>
    rw [ofTrees_cons] at hlast ⊢
    obtain ⟨htree, htrees⟩ := List.forall_mem_cons.mp hlast
    refine List.forall_mem_cons.mpr ⟨boundsPart_ofTree index start tree h.1 hfirst htree, ?_⟩
    refine boundsPart_ofTrees index _ trees h.2 ?_ htrees
    exact Nat.le_trans hfirst (index.line_mono (Nat.le_add_right _ _))

end

/-- Whatever the text, all that stands in the script made of it is on lines of the script. -/
theorem bounds_ofText (index : Text.LineIndex) (text : List Char) :
    let script := Ast.Script.ofTree (parse text).tree
    (Region.between 0 (index.lastLine script.extent)).BoundsAll index script.statements := by
  have hrooted := parse_rooted text
  have hbounds := boundsPart_ofTree index 0 (parse text).tree hrooted (Nat.zero_le _)
    fun hseen => Nat.le_of_eq (congrArg index.line (Ast.Extent.stop_core hseen).symm)
  exact hbounds

end Inference

end QuantumScript
