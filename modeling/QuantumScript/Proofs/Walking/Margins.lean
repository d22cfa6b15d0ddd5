import QuantumScript.Proofs.Parsing.Endings
import QuantumScript.Proofs.Walking.Occurrences
/-!
# Lines of compound statements

In a source without errors no two statements at the top level share a line if one of them is a compound
statement. What ends the line between them is a line feed of the text.
-/

namespace QuantumScript

namespace Lexeme

private theorem feed_of_measure {c : Char} {cs : List Char} {n : Nat} (h : measure c cs = (.lineBreak, n)) :
    '\n' ∈ c :: cs.take n := by
  have hoperand : ∀ piece, operand? c cs = some piece → piece.1 ≠ .lineBreak := by
    intro piece hpiece
    unfold operand? at hpiece
    split at hpiece
    · split at hpiece <;> cases hpiece <;> simp
    · split at hpiece
      · cases hpiece
        simp
      · split at hpiece
        · cases hpiece
          simp
        · split at hpiece <;> cases hpiece
          simp
  unfold measure at h
  split at h
  · rename_i piece hfiller
    subst h
    unfold filler? at hfiller
    split at hfiller
    · cases hfiller
    split at hfiller
    · rename_i hfeed
      exact hfeed ▸ List.mem_cons_self
    split at hfiller
    · split at hfiller <;> cases hfiller
      cases cs with
      | nil => simp_all [headIs]
      | cons d cs => simp_all [headIs]
    split at hfiller
    · obtain ⟨_, _, hpair⟩ := Option.map_eq_some_iff.mp hfiller
      cases hpair
    · split at hfiller <;> cases hfiller
  · split at h
    · rename_i piece hpiece
      exact absurd (congrArg Prod.fst h) (hoperand piece hpiece)
    · split at h <;> cases h

private theorem feed_of_mem_ofText {text : List Char} {lexeme : Lexeme} (h : lexeme ∈ ofText text)
    (hkind : lexeme.kind = .lineBreak) : '\n' ∈ lexeme.text := by
  fun_induction ofText text with
  | case1 => cases h
  | case2 c cs kind n hmeasure ih =>
    rcases List.mem_cons.mp h with rfl | h
    · obtain rfl : kind = .lineBreak := hkind
      exact feed_of_measure hmeasure
    · exact ih h

end Lexeme

namespace Syntax

namespace Layout

private theorem bears_unindent (width : Nat) (blocks : List Nat) :
    ∀ token ∈ (unindent width blocks).1, token.kind.bears = false := by
  induction blocks with
  | nil =>
    unfold unindent
    split
    · exact List.forall_mem_nil _
    · exact List.forall_mem_singleton.mpr rfl
  | cons block blocks ih =>
    unfold unindent
    split
    · exact List.forall_mem_cons.mpr ⟨rfl, ih⟩
    · split
      · exact List.forall_mem_nil _
      · exact List.forall_mem_singleton.mpr rfl

private theorem bears_step (layout : Layout) (lexeme : Lexeme) :
    ∀ token ∈ (layout.step lexeme).1, token.kind.bears = true → token = Token.ofLexeme lexeme := by
  unfold step
  dsimp only
  split
  · exact List.forall_mem_singleton.mpr fun _ => rfl
  · exact List.forall_mem_singleton.mpr fun _ => rfl
  · refine List.forall_mem_singleton.mpr fun hbears => ?_
    split at hbears
    · cases hbears
    · rw [if_neg ‹_›]
  · refine List.forall_mem_append.mpr ⟨fun token hmem hbears => ?_, List.forall_mem_singleton.mpr fun _ => rfl⟩
    have hnone : ∀ token ∈ (reindent layout.width layout.blocks).1, token.kind.bears = false := by
      unfold reindent
      split
      · exact List.forall_mem_singleton.mpr rfl
      · exact bears_unindent _ _
    split at hmem
    · rw [hnone token hmem] at hbears
      cases hbears
    · cases hmem

private theorem lineBreak_of_tokens {layout : Layout} {lexemes : List Lexeme} {front back : List Token}
    {stop : Token}
    (h : layout.tokens lexemes = front ++ stop :: back) (hstop : stop.kind = .newline)
    (hback : ∃ token ∈ back, token.kind.bears = true) :
    ∃ lexeme ∈ lexemes, stop = Token.ofLexeme lexeme := by
  induction lexemes generalizing layout front with
  | nil =>
    have hedges : ∀ token ∈ layout.blocks.map fun _ => Token.dedent, token.kind.bears = false := by
      intro token hmem
      obtain ⟨_, _, rfl⟩ := List.mem_map.mp hmem
      rfl
    have hlater {front : List Token}
        (h : (layout.blocks.map fun _ => Token.dedent) = front ++ stop :: back) : False := by
      have hown := hedges stop (h ▸ List.mem_append_right _ List.mem_cons_self)
      rw [hstop] at hown
      cases hown
    obtain ⟨token, hmem, hbears⟩ := hback
    rw [tokens, finish] at h
    split at h
    · exact (hlater h).elim
    · cases front with
      | nil =>
        obtain ⟨_, rfl⟩ := List.cons.inj h
        rw [hedges token hmem] at hbears
        cases hbears
      | cons _ front => exact (hlater (List.cons.inj h).2).elim
  | cons lexeme lexemes ih =>
    have htokens : layout.tokens (lexeme :: lexemes) =
        (layout.step lexeme).1 ++ (layout.step lexeme).2.tokens lexemes := rfl
    rw [htokens] at h
    rcases List.append_eq_append_iff.mp h with ⟨between, hfront, hrest⟩ | ⟨between, hopening, hrest⟩
    · obtain ⟨own, hmem, hown⟩ := ih hrest
      exact ⟨own, List.mem_cons_of_mem _ hmem, hown⟩
    · cases between with
      | nil =>
        obtain ⟨own, hmem, hown⟩ := @ih _ [] hrest.symm
        exact ⟨own, List.mem_cons_of_mem _ hmem, hown⟩
      | cons token between =>
        obtain ⟨rfl, _⟩ := List.cons.inj hrest
        refine ⟨lexeme, List.mem_cons_self, layout.bears_step lexeme stop ?_ (hstop ▸ rfl)⟩
        rw [hopening]
        exact List.mem_append_right _ List.mem_cons_self

end Layout

private theorem Token.feed_of_newline {text : List Char} {front back : List Token} {stop : Token}
    (h : Token.ofText text = front ++ stop :: back) (hstop : stop.kind = .newline)
    (hback : ∃ token ∈ back, token.kind.bears = true) : '\n' ∈ stop.text := by
  obtain ⟨lexeme, hmem, rfl⟩ := Layout.lineBreak_of_tokens h hstop hback
  rw [Token.text_ofLexeme]
  refine Lexeme.feed_of_mem_ofText hmem ?_
  obtain ⟨kind, text⟩ := lexeme
  cases kind with
  | lineBreak => rfl
  | word =>
    dsimp only [Token.ofLexeme] at hstop
    split at hstop <;> cases hstop
  | literal form => cases form <;> cases hstop
  | _ => cases hstop

end Syntax

namespace Ast

open Syntax

namespace Part

mutual

/-- Where no leaf of a tree is seen, no part is. -/
theorem unseen_ofTree (start : Nat) (tree : Tree) (h : ∀ leaf ∈ tree.leaves, isLayout leaf.1 = true) :
    (ofTree start tree).extent.first = none := by
  match tree with
  | .token kind text =>
    have hkind : isLayout kind = true := h (kind, text) List.mem_cons_self
    simp [ofTree, extent, leafExtent, hkind]
  | .node kind children =>
    have hnone : (ofTrees start children).filter (fun part => part.extent.first.isSome) = [] :=
      List.filter_eq_nil_iff.mpr fun part hmem => by simp [unseen_ofLayout start children h part hmem]
    rw [ofTree, extent_assemble, extentOf]
    dsimp only
    rw [hnone]
    rfl

private theorem unseen_ofLayout (start : Nat) (trees : List Tree)
    (h : ∀ leaf ∈ Tree.leavesAll trees, isLayout leaf.1 = true) :
    ∀ part ∈ ofTrees start trees, part.extent.first = none := by
  match trees with
  | [] =>
    intro part hmem
    rw [ofTrees] at hmem
    cases hmem
  | tree :: trees =>
    obtain ⟨htree, htrees⟩ := List.forall_mem_append.mp h
    rw [ofTrees_cons]
    exact List.forall_mem_cons.mpr ⟨unseen_ofTree start tree htree, unseen_ofLayout _ trees htrees⟩

end

mutual

private theorem last_le_ofTree (start : Nat) (tree : Tree) {front back : List (TokenKind × List Char)}
    (h : tree.leaves = front ++ back) (hback : ∀ leaf ∈ back, isLayout leaf.1 = true)
    (hseen : (ofTree start tree).extent.first.isSome = true) :
    (ofTree start tree).extent.last ≤ start + Text.byteLength (front.flatMap Prod.snd) := by
  match tree with
  | .token kind text =>
    cases front with
    | nil =>
      rw [unseen_ofTree start _ (h ▸ hback)] at hseen
      cases hseen
    | cons leaf front =>
      obtain ⟨rfl, hnil⟩ := List.cons.inj h
      obtain ⟨rfl, _⟩ := List.append_eq_nil_iff.mp hnil.symm
      simp [ofTree, extent, leafExtent]
  | .node kind children =>
    rw [ofTree, extent_assemble] at hseen ⊢
    obtain ⟨part, hpart⟩ : ∃ part,
        ((ofTrees start children).filter fun part => part.extent.first.isSome).getLast? = some part := by
      refine Option.ne_none_iff_exists'.mp fun hnone => ?_
      rw [extentOf] at hseen
      dsimp only at hseen
      rw [List.getLast?_eq_none_iff.mp hnone] at hseen
      cases hseen
    obtain ⟨hmem, hpartSeen⟩ := List.mem_filter.mp (List.mem_of_getLast? hpart)
    rw [extentOf]
    dsimp only
    rw [hpart]
    exact last_le_ofTrees start children h hback part hmem hpartSeen

private theorem last_le_ofTrees (start : Nat) (trees : List Tree) {front back : List (TokenKind × List Char)}
    (h : Tree.leavesAll trees = front ++ back) (hback : ∀ leaf ∈ back, isLayout leaf.1 = true) :
    ∀ part ∈ ofTrees start trees, part.extent.first.isSome = true →
      part.extent.last ≤ start + Text.byteLength (front.flatMap Prod.snd) := by
  match trees with
  | [] =>
    intro part hmem
    rw [ofTrees] at hmem
    cases hmem
  | tree :: trees =>
    rw [ofTrees_cons]
    have hwithin := within_ofTree start tree
    rcases List.append_eq_append_iff.mp h with ⟨between, hfront, hrest⟩ | ⟨between, htree, hrest⟩
    · -- The first tree is among the leaves in front.
      have hlength : Text.byteLength (front.flatMap Prod.snd) =
          tree.byteLength + Text.byteLength (between.flatMap Prod.snd) := by
        rw [hfront, List.flatMap_append, Text.byteLength_append, Tree.byteLength_eq]
        rfl
      refine List.forall_mem_cons.mpr ⟨fun _ => ?_, fun part hmem hseen => ?_⟩
      · have hstop := hwithin.stop_le
        have hlast := hwithin.last_le
        omega
      · have hlater := last_le_ofTrees (start + tree.byteLength) trees hrest hback part hmem hseen
        omega
    · obtain ⟨hbetween, hlater⟩ := List.forall_mem_append.mp (hrest ▸ hback)
      refine List.forall_mem_cons.mpr ⟨last_le_ofTree start tree htree hbetween, fun part hmem hseen => ?_⟩
      rw [unseen_ofLayout _ trees hlater part hmem] at hseen
      cases hseen

end

private theorem ofTrees_split {start : Nat} {trees : List Tree} {front back : List Part}
    (h : ofTrees start trees = front ++ back) : ∃ first rest, trees = first ++ rest ∧
      ofTrees start first = front ∧ ofTrees (start + Tree.byteLengthAll first) rest = back := by
  induction trees generalizing start front with
  | nil =>
    rw [ofTrees] at h
    obtain ⟨rfl, rfl⟩ := List.append_eq_nil_iff.mp h.symm
    exact ⟨[], [], rfl, by rw [ofTrees], by rw [ofTrees]⟩
  | cons tree trees ih =>
    cases front with
    | nil => exact ⟨[], tree :: trees, rfl, by rw [ofTrees], h⟩
    | cons part front =>
      rw [ofTrees_cons] at h
      obtain ⟨rfl, hrest⟩ := List.cons.inj h
      obtain ⟨first, rest, rfl, rfl, rfl⟩ := ih hrest
      refine ⟨tree :: first, rest, rfl, ofTrees_cons _ _ _, ?_⟩
      rw [Tree.byteLengthAll, Nat.add_assoc]

end Part

/-- A statement that holds a block. -/
def Statement.isCompound : Statement → Bool
  | .function .. | .classDefinition .. | .ifStatement .. | .whileStatement .. | .forStatement ..
  | .withStatement .. | .tryStatement .. => true
  | _ => false

private theorem Part.isCompound_of_statement {start : Nat} {tree : Tree} {s : Statement}
    (h : ofTree start tree = .statement s) : tree.isCompound = s.isCompound := by
  cases tree with
  | token kind text => cases h
  | node kind children =>
    rw [ofTree] at h
    cases kind <;> first | cases h; rfl | cases h

end Ast

namespace Inference

open Ast.Part Syntax

private theorem bears_of_isSolid {kind : TokenKind} (h : kind.isSolid = true) : kind.bears = true := by
  cases kind <;> first | rfl | cases h

/-- Among the trees that a statement is read from there is a token that is seen. -/
theorem solid_of_statement {start : Nat} {trees : List Tree} (hrooted : Tree.RootedAll trees)
    {s : Ast.Statement} (h : .statement s ∈ ofTrees start trees) :
    s.extent.first.isSome = true ∧ ∃ leaf ∈ Tree.leavesAll trees, leaf.1.isSolid = true := by
  obtain ⟨own, tree, hmem, htree⟩ := exists_of_mem_ofTrees h
  have hleaf : ∃ leaf ∈ tree.leaves, leaf.1.isSolid = true := by
    have hroot := Tree.rootedAll_iff.mp hrooted tree hmem
    cases tree with
    | token kind text => cases htree
    | node kind children =>
      rw [ofTree] at htree
      refine hroot.1 ?_
      cases kind <;> first | rfl | cases htree
  have hseen := seen_ofTree own tree hleaf
  rw [htree] at hseen
  obtain ⟨leaf, hleaf, hsolid⟩ := hleaf
  exact ⟨hseen, leaf, Tree.mem_leavesAll.mpr ⟨tree, hmem, hleaf⟩, hsolid⟩

section Rows

variable {text : List Char} {front back : List Tree}

private theorem line_lt_of_lineEnded
    (hleaves : Tree.leavesAll (front ++ back) = (Token.ofText text).map Token.entry)
    (hrooted : Tree.RootedAll (front ++ back)) (hended : LineEnded (Tree.leavesAll front))
    {p q : Ast.Statement} (hp : .statement p ∈ ofTrees 0 front)
    (hq : .statement q ∈ ofTrees (Tree.byteLengthAll front) back) :
    (Text.LineIndex.ofText text).lastLine p.extent < (Text.LineIndex.ofText text).firstLine q.extent := by
  have hlayout {kind : TokenKind} (h : kind.bears = false) : Ast.Part.isLayout kind = true := by
    cases kind <;> first | rfl | cases h
  obtain ⟨hfront, hback⟩ := Tree.rootedAll_append.mp hrooted
  obtain ⟨hseen, own, hown, hownSolid⟩ := solid_of_statement hfront hp
  obtain ⟨-, other, hother, hotherSolid⟩ := solid_of_statement hback hq
  obtain ⟨line, feed, edges, hsplit, hedges⟩ := hended.split fun hnil => by
    have hmem : own ∈ bearing (Tree.leavesAll front) := List.mem_filter.mpr ⟨hown, bears_of_isSolid hownSolid⟩
    rw [hnil] at hmem
    cases hmem
  have hunseen : ∀ leaf ∈ (.newline, feed) :: edges, Ast.Part.isLayout leaf.1 = true := by
    refine List.forall_mem_cons.mpr ⟨rfl, fun leaf hmem => hlayout ?_⟩
    exact Bool.eq_false_iff.mpr (List.filter_eq_nil_iff.mp hedges leaf hmem)
  -- The line feed stands behind the last token of the one and before the first of the other.
  have hlast := last_le_ofTrees 0 front hsplit hunseen _ hp hseen
  have hfirst := (within_ofTrees _ back _ hq).first_le
  have hfeed : '\n' ∈ feed := by
    rw [Tree.leavesAll_append, hsplit, List.append_assoc, List.cons_append] at hleaves
    obtain ⟨taken, rest, htokens, htaken, hrest⟩ := List.map_eq_append_iff.mp hleaves.symm
    obtain ⟨stop, after, rfl, hstop, hafter⟩ := List.map_eq_cons_iff.mp hrest
    obtain ⟨hkind, rfl⟩ := Prod.mk.inj hstop
    refine Token.feed_of_newline htokens hkind ?_
    have hmem : other ∈ after.map Token.entry := hafter ▸ List.mem_append_right _ hother
    obtain ⟨token, htoken, rfl⟩ := List.mem_map.mp hmem
    exact ⟨token, htoken, bears_of_isSolid hotherSolid⟩
  obtain ⟨early, late, rfl⟩ := List.append_of_mem hfeed
  -- The text up to the line feed, and what follows it.
  let above := line.flatMap Prod.snd ++ early
  let below := late ++ edges.flatMap Prod.snd
  have habove : (Tree.leavesAll front).flatMap Prod.snd = (above ++ ['\n']) ++ below := by
    simp [hsplit, above, below]
  have htext : text = (above ++ ['\n']) ++ (below ++ (Tree.leavesAll back).flatMap Prod.snd) := by
    have hall : ((Token.ofText text).map Token.entry).flatMap Prod.snd = text := by
      rw [List.flatMap_map]
      exact Token.flatMap_text_ofText text
    rw [← hleaves, Tree.leavesAll_append, List.flatMap_append, habove, List.append_assoc] at hall
    exact hall.symm
  have hlength : Tree.byteLengthAll front = Text.byteLength (above ++ ['\n']) + Text.byteLength below := by
    rw [Tree.byteLengthAll_eq, habove, Text.byteLength_append]
  have hfeedLength : Text.byteLength (above ++ ['\n']) =
      Text.byteLength (line.flatMap Prod.snd) + Text.byteLength early + 1 := by
    rw [Text.byteLength_append, Text.byteLength_append]
    rfl
  have hearly : p.extent.last < Text.byteLength (above ++ ['\n']) := by
    have hle : p.extent.last ≤ 0 + Text.byteLength (line.flatMap Prod.snd) := hlast
    omega
  have hlate : Text.byteLength (above ++ ['\n']) ≤ q.extent.span.start := by
    have hle : Tree.byteLengthAll front ≤ q.extent.span.start := hfirst
    omega
  rw [Text.LineIndex.lastLine, Ast.Extent.stop_core hseen, htext]
  exact Text.LineIndex.line_lt (.inr ⟨above, rfl⟩) _ hearly hlate

end Rows

/-- In a source without errors a compound statement at the top level shares no line with another
statement. -/
private theorem lines_apart {text : List Char} (h : (parse text).errors = [])
    {before after : List Ast.Statement}
    {s : Ast.Statement} (hsplit : (Ast.Script.ofTree (parse text).tree).statements = before ++ s :: after)
    (hs : s.isCompound = true) :
    let index := Text.LineIndex.ofText text
    (∀ p ∈ before, index.lastLine p.extent < index.firstLine s.extent) ∧
      ∀ q ∈ after, index.lastLine s.extent < index.firstLine q.extent := by
  intro index
  obtain ⟨children, htree, hseparated⟩ := parse_separated h
  have hrooted : Tree.RootedAll children := by
    have hroot := parse_rooted text
    rw [htree] at hroot
    exact hroot.2
  have hleaves : Tree.leavesAll children = (Token.ofText text).map Token.entry := by
    have hall : (parse text).tree.leaves = (Token.ofText text).map Token.entry := leavesAll_parseTokens _
    rwa [htree] at hall
  have hstatements : (ofTrees 0 children).filterMap statement? = before ++ s :: after := by
    rw [← hsplit, htree]
    rfl
  have hmem {part : Ast.Part} {other : Ast.Statement} (h : part.statement? = some other) :
      part = .statement other := by
    cases part <;> cases h
    rfl
  -- The statement is read from one of the children.
  obtain ⟨early, late, hparts, rfl, hlate⟩ := List.filterMap_eq_append_iff.mp hstatements
  obtain ⟨gap, own, rest, rfl, -, hown, rfl⟩ := List.filterMap_eq_cons_iff.mp hlate
  obtain rfl := hmem hown
  rw [← List.append_assoc] at hparts
  obtain ⟨front, back, rfl, hfront, hback⟩ := ofTrees_split hparts
  rw [Nat.zero_add] at hback
  obtain ⟨tree, trees, rfl⟩ : ∃ tree trees, back = tree :: trees := by
    cases back with
    | nil =>
      rw [ofTrees] at hback
      cases hback
    | cons tree trees => exact ⟨tree, trees, rfl⟩
  obtain ⟨hended, hlast⟩ := hseparated front tree trees rfl (by
    rw [ofTrees_cons] at hback
    rw [isCompound_of_statement (List.cons.inj hback).1, hs])
  have hself : .statement s ∈ ofTrees (Tree.byteLengthAll front) (tree :: trees) := hback ▸ List.mem_cons_self
  refine ⟨fun p hp => ?_, fun q hq => ?_⟩
  · obtain ⟨part, hpart, hstatement⟩ := List.mem_filterMap.mp hp
    obtain rfl := hmem hstatement
    have hmember : .statement p ∈ ofTrees 0 front := hfront ▸ List.mem_append_left _ hpart
    exact line_lt_of_lineEnded hleaves hrooted hended hmember hself
  · obtain ⟨part, hpart, hstatement⟩ := List.mem_filterMap.mp hq
    obtain rfl := hmem hstatement
    have hsplit : front ++ tree :: trees = (front ++ [tree]) ++ trees := by rw [List.append_assoc]; rfl
    have hlength : Tree.byteLengthAll (front ++ [tree]) = Tree.byteLengthAll front + tree.byteLength := by
      rw [Tree.byteLengthAll_eq, Tree.leavesAll_append, List.flatMap_append, Text.byteLength_append,
        ← Tree.byteLengthAll_eq, ← Tree.byteLengthAll_eq, Tree.byteLengthAll, Tree.byteLengthAll, Nat.add_zero]
    rw [ofTrees_cons] at hback
    obtain ⟨hown, hrest⟩ := List.cons.inj hback
    have hlater : .statement q ∈ ofTrees (Tree.byteLengthAll (front ++ [tree])) trees := by
      rw [hlength, hrest]
      exact hpart
    have hmember : .statement s ∈ ofTrees 0 (front ++ [tree]) := by
      rw [ofTrees_append, Nat.zero_add, ofTrees_cons, hown]
      exact List.mem_append_right _ List.mem_cons_self
    rw [hsplit] at hleaves hrooted
    rcases hlast with hlast | hnone
    · exact line_lt_of_lineEnded hleaves hrooted hlast hmember hlater
    · -- Nothing stands on a line behind the last child that is a statement.
      obtain ⟨-, leaf, hleaf, hsolid⟩ := solid_of_statement (Tree.rootedAll_append.mp hrooted).2 hlater
      have hbearing : leaf ∈ bearing (Tree.leavesAll trees) := List.mem_filter.mpr ⟨hleaf, bears_of_isSolid hsolid⟩
      rw [hnone] at hbearing
      cases hbearing

/-- So what stands in the statements in front is on lines above it, and what stands in those behind is on
lines below it. -/
theorem bounds_apart {text : List Char} (h : (parse text).errors = []) {before after : List Ast.Statement}
    {s : Ast.Statement} (hsplit : (Ast.Script.ofTree (parse text).tree).statements = before ++ s :: after)
    (hs : s.isCompound = true) :
    let index := Text.LineIndex.ofText text
    (Region.between 0 (index.firstLine s.extent - 1)).BoundsAll index before ∧
      ∃ last, (Region.between (index.firstLine s.extent + 1) last).BoundsAll index after := by
  intro index
  obtain ⟨hbefore, hafter⟩ := lines_apart h hsplit hs
  have hmem : ∀ other ∈ before ++ s :: after, other ∈ (Ast.Script.ofTree (parse text).tree).all :=
    fun other hother => Ast.mem_allStatements_of_mem (hsplit ▸ hother)
  have hself : index.firstLine s.extent ≤ index.lastLine s.extent := by
    have hmember := hmem s (List.mem_append_right _ List.mem_cons_self)
    exact (bounds_of_mem index hmember (Nat.le_refl _) (Nat.le_refl _)).has.2
  refine ⟨boundsAll_of_forall fun p hp => ?_, max 1 index.lines.length, boundsAll_of_forall fun q hq => ?_⟩
  · refine bounds_of_mem index (hmem p (List.mem_append_left _ hp)) (Nat.zero_le _) ?_
    exact Nat.le_sub_one_of_lt (hbefore p hp)
  · refine bounds_of_mem index (hmem q (List.mem_append_right _ (List.mem_cons_of_mem _ hq))) ?_
      (index.line_le _)
    exact Nat.lt_of_le_of_lt hself (hafter q hq)

end Inference

end QuantumScript
