import QuantumScript.Proofs.Parsing.Shapes
import QuantumScript.Proofs.Parsing.Rooted
/-!
# Surveys of scripts

A survey tells what a script makes of a node on its way if it is read without an error: how the script
can answer, and what is left to be fit of the shape of the node. Calls are surveyed by what the rules make.
A survey that passes shows that the children of every node fit its shape.
-/

namespace QuantumScript

namespace Syntax

namespace Kinds

/-- The kinds that may come. -/
def members (known : Kinds) : List TokenKind :=
  Kind.all.filterMap fun
    | .token kind => if known.allows kind then some kind else none
    | _ => none

private theorem mem_members {known : Kinds} {kind : TokenKind} (h : known.allows kind = true) :
    kind ∈ known.members := by
  have hall : Kind.token kind ∈ Kind.all := List.mem_of_getElem? kind.ofCode?_code
  exact List.mem_filterMap.mpr ⟨_, hall, if_pos h⟩

end Kinds

/-- What is known of the finished parts of a node: what was left to be fit before the last part, and what
this part counts as. -/
structure Tally where
  left : Shapes
  /-- None if the last part does not count or is not known. -/
  last : Option Piece
  deriving DecidableEq, Repr

namespace Tally

/-- What is left to be fit after all finished parts. -/
def settle (tally : Tally) : Shapes :=
  match tally.last with
  | none => tally.left
  | some piece => tally.left.after piece

/-- One more part is finished. -/
def push (tally : Tally) (piece : Option Piece) : Tally := ⟨tally.settle, piece⟩

/-- Nothing is known. -/
def lost : Tally := ⟨[], none⟩

end Tally

/-- A way that a survey can end. -/
structure Stage where
  answer : Bool
  /-- What is known of the next token. -/
  kinds : Kinds
  tally : Tally
  deriving DecidableEq, Repr

/-- What is known of a place that nothing is known of. -/
def Stage.lost : Stage := ⟨true, .except [], .lost⟩

/-- All that is reached by steps from the values seen. After too many rounds it is only that all is lost. -/
def closure {α : Type} [DecidableEq α] (step : α → List α) (lost : α) : Nat → List α → List α
  | 0, _ => [lost]
  | rounds + 1, seen =>
    let more := ((seen.flatMap step).filter fun value => !seen.contains value).eraseDups
    if more.isEmpty then seen else closure step lost rounds (seen ++ more)

private theorem closure_closed {α : Type} [DecidableEq α] (step : α → List α) (lost : α) (rounds : Nat)
    (seen : List α) :
    lost ∈ closure step lost rounds seen ∨
      seen ⊆ closure step lost rounds seen ∧
        ∀ value ∈ closure step lost rounds seen, step value ⊆ closure step lost rounds seen := by
  induction rounds generalizing seen with
  | zero => exact .inl (List.mem_singleton_self lost)
  | succ rounds ih =>
    unfold closure
    dsimp only
    split
    · rename_i hempty
      refine .inr ⟨List.Subset.refl seen, fun value hvalue next hnext => ?_⟩
      refine Classical.byContradiction fun hunseen => ?_
      have hmore : next ∈ ((seen.flatMap step).filter fun value => !seen.contains value).eraseDups := by
        rw [List.mem_eraseDups, List.mem_filter]
        exact ⟨List.mem_flatMap.mpr ⟨value, hvalue, hnext⟩, by simp [hunseen]⟩
      rw [List.isEmpty_iff.mp hempty] at hmore
      cases hmore
    · refine (ih _).imp_right fun hclosed => ⟨?_, hclosed.2⟩
      exact List.Subset.trans (List.subset_append_left _ _) hclosed.1

/-- What can be left to be fit after pieces that make a shape. -/
def Shape.through : Shape → Shapes → List Shapes
  | .empty, shapes => [shapes]
  | .one own, shapes => own.map shapes.after
  | .seq first second, shapes => ((through first shapes).flatMap (through second)).eraseDups
  | .either first second, shapes => through first shapes ++ through second shapes
  | .many round, shapes => closure (through round) [] 4 [shapes]

private theorem Shape.Fits.afterAll_mem_through {shape : Shape} {pieces : List Piece} (h : shape.Fits pieces)
    (shapes : Shapes) :
    ∃ left ∈ shape.through shapes, left = shapes.afterAll pieces ∨ left = [] := by
  induction shape generalizing pieces shapes with
  | empty => exact ⟨shapes, List.mem_singleton_self _, .inl (h ▸ rfl)⟩
  | one own =>
    obtain ⟨piece, hown, rfl⟩ := h
    exact ⟨shapes.after piece, List.mem_map_of_mem hown, .inl rfl⟩
  | seq first second ihfirst ihsecond =>
    obtain ⟨front, rest, rfl, hfront, hrest⟩ := h
    obtain ⟨mid, hmid, hfirst⟩ := ihfirst hfront shapes
    obtain ⟨left, hleft, hsecond⟩ := ihsecond hrest mid
    refine ⟨left, List.mem_eraseDups.mpr (List.mem_flatMap.mpr ⟨mid, hmid, hleft⟩), ?_⟩
    rcases hfirst with rfl | rfl
    · rwa [Shapes.afterAll_append]
    · exact .inr (hsecond.elim (fun heq => heq.trans (Shapes.afterAll_none rest)) id)
  | either first second ihfirst ihsecond =>
    rcases h with hfirst | hsecond
    · obtain ⟨left, hmem, hleft⟩ := ihfirst hfirst shapes
      exact ⟨left, List.mem_append_left _ hmem, hleft⟩
    · obtain ⟨left, hmem, hleft⟩ := ihsecond hsecond shapes
      exact ⟨left, List.mem_append_right _ hmem, hleft⟩
  | many round ih =>
    obtain ⟨rounds, rfl, hrounds⟩ := h
    rcases closure_closed (through round) [] 4 [shapes] with hlost | ⟨hseen, hclosed⟩
    · exact ⟨[], hlost, .inr rfl⟩
    · -- Every round stays among what is reached.
      have hreached : ∀ start ∈ closure (through round) [] 4 [shapes],
          ∃ left ∈ closure (through round) [] 4 [shapes],
            left = start.afterAll rounds.flatten ∨ left = [] := by
        induction rounds with
        | nil => exact fun start hstart => ⟨start, hstart, .inl rfl⟩
        | cons front rounds ihrounds =>
          obtain ⟨hfront, hrounds⟩ := List.forall_mem_cons.mp hrounds
          intro start hstart
          obtain ⟨mid, hmid, hround⟩ := ih hfront start
          rcases hround with rfl | rfl
          · rw [List.flatten_cons, Shapes.afterAll_append]
            exact ihrounds hrounds _ (hclosed start hstart hmid)
          · exact ⟨[], hclosed start hstart hmid, .inr rfl⟩
      exact hreached shapes (hseen (List.mem_singleton_self _))

/-- What a rule makes if it is read without an error. -/
inductive Product
  /-- One part, and the answer is yes. -/
  | single (pieces : List Piece)
  /-- Parts that make the shape if the next token has one of the kinds, else parts that make the other
  one; the answer is yes or no. -/
  | several (kinds : List TokenKind) (shape other : Shape)

def Product.stages (product : Product) (known : Kinds) (tally : Tally) : List Stage :=
  match product with
  | .single pieces => pieces.map fun piece => ⟨true, .except [], tally.push (some piece)⟩
  | .several kinds shape other =>
    (made (known.meet (.among kinds)) shape ++ made (known.meet (.except kinds)) other).flatMap
      fun left => [⟨true, .except [], ⟨left, none⟩⟩, ⟨false, .except [], ⟨left, none⟩⟩]
where
  made (known : Kinds) (shape : Shape) : List Shapes :=
    if known.isNone then [] else shape.through tally.settle

namespace Label

/-- The shapes of all nodes that can have the label. -/
def shapes : Label → Shapes
  | .always kind => [.ofKind kind]
  | .unlessComprehension kind => [.ofKind kind, .comprehension]
  | .definition => [.ofKind .function, .ofKind .classDefinition]

def piece : Label → Piece
  | .always kind => kind.piece
  | .unlessComprehension _ => .compound
  | .definition => .statement

/-- Kinds that a comprehension is told apart from. -/
def proper : Label → Bool
  | .unlessComprehension kind => [.parenthesized, .list, .dictionary].contains kind
  | _ => true

end Label

namespace Script

variable {Rule : Type}

/-- What is known outside a node from what is known inside it. All is lost if the parts may not
fit the shape of the node. -/
def enclose (inner : List Stage) (outer : Tally) : List Stage :=
  let tally := if inner.all fun stage => stage.tally.settle.done then outer else .lost
  (inner.map fun stage => ⟨true, stage.kinds, tally⟩ : List Stage).eraseDups

/-- All that the rounds of a loop can start with. -/
def starts (round : Stage → List Stage) (start : Stage) : List Stage :=
  closure (fun stage => (round stage).filter Stage.answer) .lost 6 [start]

/-- How a script can end if it is read without an error. -/
def survey (makes : Rule → Product) : Script Rule → Kinds → Tally → List Stage
  | .answer value, known, tally => [⟨value, known, tally⟩]
  | .bump kind, _, tally => [⟨true, .except [], tally.push kind.piece?⟩]
  | .demand kinds, known, tally => live [⟨true, known.meet (.among kinds), tally⟩]
  | .advance, known, tally =>
    known.members.map fun kind => ⟨true, .except [], tally.push kind.piece?⟩
  | .report _, _, _ => []
  | .ask (.at kinds), known, tally =>
    live [⟨true, known.meet (.among kinds), tally⟩, ⟨false, known.meet (.except kinds), tally⟩]
  | .ask (.atPair _ _), known, tally => [⟨true, known, tally⟩, ⟨false, known, tally⟩]
  | .call rule, known, tally => (makes rule).stages known tally
  | .seq first second, known, tally =>
    ((survey makes first known tally).flatMap fun stage =>
      survey makes second stage.kinds stage.tally).eraseDups
  | .cond test yes no, known, tally =>
    ((survey makes test known tally).flatMap fun stage =>
      if stage.answer then survey makes yes stage.kinds stage.tally
      else survey makes no stage.kinds stage.tally).eraseDups
  | .node label body, known, tally =>
    enclose (survey makes body known ⟨label.shapes, none⟩)
      (if label.proper then tally.push (some label.piece) else .lost)
  | .wrap kind body, known, tally =>
    match tally.last with
    | none => [.lost]
    | some piece =>
      if tally.left.isEmpty then [.lost]
      else enclose (survey makes body known ⟨[.ofKind kind], some piece⟩) ⟨tally.left, some kind.piece⟩
  | .statement kind body, known, tally =>
    enclose (survey makes body known ⟨[.ofKind kind], none⟩) (tally.push (some kind.piece))
  | .loop body, known, tally =>
    let round (start : Stage) : List Stage := survey makes body start.kinds start.tally
    (((starts round ⟨true, known, tally⟩).flatMap round).filter fun stage => !stage.answer).map fun stage =>
      { stage with answer := true }
where
  /-- Leaves out what cannot be. -/
  live (stages : List Stage) : List Stage := stages.filter fun stage => !stage.kinds.isNone

/-- The script makes what is said of it. -/
def bears (makes : Rule → Product) (product : Product) (script : Script Rule) : Bool :=
  match product with
  | .single pieces =>
    (script.survey makes (.except []) ⟨[.empty], none⟩).all fun stage =>
      stage.answer && decide (stage.tally.left = [.empty]) && stage.tally.last.any pieces.contains
  | .several kinds shape other =>
    fills (.among kinds) shape && fills (.except kinds) other
where
  fills (known : Kinds) (shape : Shape) : Bool :=
    known.isNone || (script.survey makes known ⟨[shape], none⟩).all fun stage => stage.tally.settle.done

/-- All rules make what is said of them. -/
def Makers (grammar : Rule → Script Rule) (makes : Rule → Product) : Prop :=
  ∀ rule, bears makes (makes rule) (grammar rule) = true

end Script

namespace Tally

open QuantumScript.Syntax.Tree

/-- The tally tells of the parts that stand above a base, unless all is lost. -/
def Tells (tally : Tally) (shapes : Shapes) (base parts : List Tree) : Prop :=
  tally.left = [] ∨ ∃ added, parts = added ++ base ∧ (∀ tree ∈ added, tree.Formed) ∧
    match tally.last with
    | none => shapes.afterAll (pieces added.reverse) = tally.left
    | some piece => ∃ part rest, added = part :: rest ∧ part.piece? = some piece ∧
        shapes.afterAll (pieces rest.reverse) = tally.left

variable {tally : Tally} {shapes : Shapes} {base parts : List Tree}

private theorem tells_lost : lost.Tells shapes base parts := .inl rfl

theorem tells_start (shapes : Shapes) (base : List Tree) :
    Tells ⟨shapes, none⟩ shapes base base := .inr ⟨[], rfl, nofun, rfl⟩

private theorem afterAll_cons (shapes : Shapes) (tree : Tree) (trees : List Tree) :
    shapes.afterAll (pieces (tree :: trees).reverse) =
      match tree.piece? with
      | none => shapes.afterAll (pieces trees.reverse)
      | some piece => (shapes.afterAll (pieces trees.reverse)).after piece := by
  rw [List.reverse_cons, pieces_append, Shapes.afterAll_append]
  cases hpiece : tree.piece? <;> simp [pieces, hpiece, Shapes.afterAll]

theorem Tells.settle (h : tally.Tells shapes base parts) :
    tally.settle = [] ∨ ∃ added, parts = added ++ base ∧ (∀ tree ∈ added, tree.Formed) ∧
      shapes.afterAll (pieces added.reverse) = tally.settle := by
  obtain ⟨left, last⟩ := tally
  rcases h with rfl | ⟨added, hparts, hformed, hlast⟩
  · left
    cases last <;> rfl
  · refine .inr ⟨added, hparts, hformed, ?_⟩
    cases last with
    | none => exact hlast
    | some piece =>
      obtain ⟨part, rest, rfl, hpiece, hleft⟩ := hlast
      rw [afterAll_cons, hpiece]
      exact congrArg (Shapes.after · piece) hleft

theorem Tells.push {tree : Tree} (h : tally.Tells shapes base parts) (hformed : tree.Formed) :
    (tally.push tree.piece?).Tells shapes base (tree :: parts) := by
  rcases h.settle with hnone | ⟨added, rfl, hadded, hleft⟩
  · exact .inl hnone
  · refine .inr ⟨tree :: added, rfl, List.forall_mem_cons.mpr ⟨hformed, hadded⟩, ?_⟩
    unfold Tally.push
    cases hpiece : tree.piece? with
    | none =>
      rw [afterAll_cons, hpiece]
      exact hleft
    | some piece => exact ⟨tree, added, rfl, hpiece, hleft⟩

private theorem Tells.push_none (h : tally.Tells shapes base parts) :
    (tally.push none).Tells shapes base parts :=
  h.settle

theorem Tells.take {sketch : Sketch} (h : tally.Tells shapes base sketch.parts) :
    (tally.push sketch.current.piece?).Tells shapes base sketch.take.parts := by
  obtain ⟨rest, parts, problems⟩ := sketch
  cases rest with
  | nil => exact h.push_none
  | cons token rest => exact h.push (.token token.kind token.text)

/-- Parts that leave no more to be fit. -/
theorem Tells.fits (h : tally.Tells shapes [] parts) (hdone : tally.settle.done = true) :
    (∀ tree ∈ parts.reverse, tree.Formed) ∧ ∃ shape ∈ shapes, shape.Fits (pieces parts.reverse) := by
  rcases h.settle with hnone | ⟨added, rfl, hadded, hleft⟩
  · rw [hnone] at hdone
    cases hdone
  · rw [List.append_nil]
    refine ⟨fun tree hmem => hadded tree (List.mem_reverse.mp hmem), Shapes.fits_of_done ?_⟩
    rwa [hleft]

private theorem afterAll_more (shapes : Shapes) (more added : List Tree) :
    shapes.afterAll (pieces (more ++ added).reverse) =
      (shapes.afterAll (pieces added.reverse)).afterAll (pieces more.reverse) := by
  rw [List.reverse_append, pieces_append, Shapes.afterAll_append]

theorem Tells.single {piece : Piece} {later : List Tree} (h : tally.Tells shapes base parts)
    (hmade : Tells ⟨[.empty], some piece⟩ [.empty] parts later) :
    (tally.push (some piece)).Tells shapes base later := by
  rcases hmade with hlost | ⟨more, rfl, hmore, part, rest, rfl, hpiece, hrest⟩
  · cases hlost
  have hnone : pieces rest.reverse = [] := by
    cases hpieces : pieces rest.reverse with
    | nil => rfl
    | cons first others =>
      have hlost : Shapes.afterAll [.empty] (first :: others) = [] := Shapes.afterAll_none others
      rw [hpieces, hlost] at hrest
      cases hrest
  rcases h.settle with hlost | ⟨added, rfl, hadded, hleft⟩
  · exact .inl hlost
  · refine .inr ⟨part :: rest ++ added, (List.append_assoc _ _ _).symm,
      List.forall_mem_append.mpr ⟨hmore, hadded⟩, part, rest ++ added, rfl, hpiece, ?_⟩
    rw [afterAll_more, hnone]
    exact hleft

theorem Tells.several {shape : Shape} {made : Tally} {later : List Tree}
    (h : tally.Tells shapes base parts) (hmade : made.Tells [shape] parts later)
    (hdone : made.settle.done = true) :
    ∃ left ∈ shape.through tally.settle, Tells ⟨left, none⟩ shapes base later := by
  rcases hmade.settle with hlost | ⟨more, rfl, hmore, hmade⟩
  · rw [hlost] at hdone
    cases hdone
  rw [← hmade] at hdone
  obtain ⟨other, hother, hfits⟩ := Shapes.fits_of_done hdone
  obtain rfl := List.mem_singleton.mp hother
  obtain ⟨left, hmem, hleft⟩ := hfits.afterAll_mem_through tally.settle
  refine ⟨left, hmem, ?_⟩
  rcases hleft with rfl | rfl
  · rcases h.settle with hlost | ⟨added, rfl, hadded, hsettle⟩
    · left
      rw [hlost]
      exact Shapes.afterAll_none _
    · refine .inr ⟨more ++ added, (List.append_assoc _ _ _).symm,
        List.forall_mem_append.mpr ⟨hmore, hadded⟩, ?_⟩
      rw [afterAll_more, hsettle]
  · exact .inl rfl

end Tally

namespace Label

open QuantumScript.Syntax.Tree

private theorem any_forClause {children : List Tree} :
    (children.any fun tree => tree.nodeKind? = some .forClause) = true ↔
      .part .forClause ∈ pieces children := by
  rw [List.any_eq_true, mem_pieces]
  refine exists_congr fun tree => and_congr_right fun _ => ?_
  rw [decide_eq_true_eq]
  refine ⟨fun h => ?_, nodeKind?_of_part⟩
  cases tree with
  | token kind text => cases h
  | node kind children =>
    obtain rfl := Option.some.inj h
    rfl

private theorem any_keyword {keyword : Keyword} {children : List Tree} :
    (children.any fun tree => tree.tokenKind? = some (.keyword keyword)) = true ↔
      .word (.keyword keyword) ∈ pieces children := by
  rw [List.any_eq_true, mem_pieces]
  refine exists_congr fun tree => and_congr_right fun _ => ?_
  rw [decide_eq_true_eq]
  refine ⟨fun h => ?_, tokenKind?_of_word⟩
  cases tree with
  | token kind text =>
    obtain rfl := Option.some.inj h
    rfl
  | node kind children => cases h

private theorem mem_of_least {shape : Shape} {pieces : List Piece} {piece : Piece}
    (h : shape.Fits pieces) (hleast : 0 < shape.least (· == piece)) : piece ∈ pieces := by
  obtain ⟨other, hmem, hsame⟩ := h.exists_mem hleast
  exact beq_iff_eq.mp hsame ▸ hmem

private theorem fits_comprehension {kind : NodeKind} {children : List Tree}
    (hnone : .part .forClause ∉ (Shape.ofKind kind).pieces) (hpiece : kind.piece = .compound)
    (h : ∃ shape ∈ shapes (.unlessComprehension kind), shape.Fits (pieces children)) :
    (Shape.ofKind (resolve (.unlessComprehension kind) children)).Fits (pieces children) ∧
      (resolve (.unlessComprehension kind) children).piece = .compound := by
  obtain ⟨shape, hshape, hfits⟩ := h
  dsimp only [resolve]
  rcases List.mem_cons.mp hshape with rfl | hshape
  · rw [if_neg]
    · exact ⟨hfits, hpiece⟩
    · rw [any_forClause]
      exact fun hmem => hnone (hfits.mem_pieces _ hmem)
  · obtain rfl := List.mem_singleton.mp hshape
    rw [if_pos]
    · exact ⟨hfits, rfl⟩
    · rw [any_forClause]
      exact mem_of_least hfits (by decide)

private theorem fits_resolve {label : Label} {children : List Tree} (hproper : label.proper = true)
    (h : ∃ shape ∈ label.shapes, shape.Fits (pieces children)) :
    (Shape.ofKind (label.resolve children)).Fits (pieces children) ∧
      (label.resolve children).piece = label.piece := by
  cases label with
  | always kind =>
    obtain ⟨shape, hshape, hfits⟩ := h
    obtain rfl := List.mem_singleton.mp hshape
    exact ⟨hfits, rfl⟩
  | unlessComprehension kind =>
    have hkind : kind = .parenthesized ∨ kind = .list ∨ kind = .dictionary := by
      simpa [proper] using hproper
    rcases hkind with rfl | rfl | rfl <;> exact fits_comprehension (by decide) rfl h
  | definition =>
    obtain ⟨shape, hshape, hfits⟩ := h
    dsimp only [resolve]
    rcases List.mem_cons.mp hshape with rfl | hshape
    · rw [if_pos]
      · exact ⟨hfits, rfl⟩
      · rw [any_keyword]
        exact mem_of_least hfits (by decide)
    · obtain rfl := List.mem_singleton.mp hshape
      rw [if_neg, if_pos]
      · exact ⟨hfits, rfl⟩
      · rw [any_keyword]
        exact mem_of_least hfits (by decide)
      · rw [any_keyword]
        exact fun hmem => absurd (hfits.mem_pieces _ hmem) (by decide)

end Label

namespace Script

variable {Rule : Type} {grammar : Rule → Script Rule} {makes : Rule → Product}

/-- The stage tells of the sketch. -/
structure Meets (shapes : Shapes) (base : List Tree) (stage : Stage) (sketch : Sketch) : Prop where
  kinds : stage.kinds.allows sketch.current = true
  tally : stage.tally.Tells shapes base sketch.parts

private theorem meets_lost (shapes : Shapes) (base : List Tree) (sketch : Sketch) :
    Meets shapes base .lost sketch := ⟨Kinds.allows_all _, Tally.tells_lost⟩

/-- If no error is booked then the survey tells how the reading ends. -/
def Surveyed (makes : Rule → Product) (script : Script Rule) (sketch : Sketch) (answer : Bool)
    (after : Sketch) : Prop :=
  ∀ start shapes base, Meets shapes base start sketch →
    after.problems.length = sketch.problems.length →
    ∃ stage ∈ survey makes script start.kinds start.tally, stage.answer = answer ∧
      Meets shapes base stage after

/-- If no error is booked in the rounds of a loop, and they lead from one of the stages to another, then
one of the stages tells of the start of the last round. -/
def Rounds (makes : Rule → Product) (body : Script Rule) (sketch : Sketch) (answer : Bool)
    (after : Sketch) : Prop :=
  answer = true ∧ ∀ (starts : List Stage) (shapes : Shapes) (base : List Tree),
    (.lost ∈ starts ∨ ∀ start ∈ starts, ∀ stage ∈ survey makes body start.kinds start.tally,
      stage.answer = true → stage ∈ starts) →
    (∃ start ∈ starts, Meets shapes base start sketch) →
    after.problems.length = sketch.problems.length →
    ∃ start ∈ starts, ∃ stage ∈ survey makes body start.kinds start.tally, stage.answer = false ∧
      Meets shapes base stage after

theorem Rounds.surveyed {body : Script Rule} {sketch after : Sketch} {answer : Bool}
    (h : Rounds makes body sketch answer after) : Surveyed makes (.loop body) sketch answer after := by
  obtain ⟨rfl, hrounds⟩ := h
  intro first shapes base hmeets hlength
  have hclosed := closure_closed
    (fun start : Stage => (survey makes body start.kinds start.tally).filter Stage.answer) .lost 6
    [⟨true, first.kinds, first.tally⟩]
  have hfirst : ∃ start ∈ starts (fun start => survey makes body start.kinds start.tally)
      ⟨true, first.kinds, first.tally⟩, Meets shapes base start sketch := by
    rcases hclosed with hlost | hseen
    · exact ⟨.lost, hlost, meets_lost shapes base sketch⟩
    · exact ⟨⟨true, first.kinds, first.tally⟩, hseen.1 (List.mem_singleton_self _), hmeets.kinds, hmeets.tally⟩
  obtain ⟨last, hlast, stage, hstage, hanswer, hafter⟩ := hrounds _ shapes base
    (hclosed.imp_right fun hclosed start hstart stage hstage hanswer =>
      hclosed.2 start hstart (List.mem_filter.mpr ⟨hstage, hanswer⟩)) hfirst hlength
  refine ⟨{ stage with answer := true }, ?_, rfl, hafter.kinds, hafter.tally⟩
  refine List.mem_map_of_mem (List.mem_filter.mpr ⟨List.mem_flatMap.mpr ⟨last, hlast, hstage⟩, ?_⟩)
  rw [hanswer]
  rfl

/-- What a survey tells of a reading. Of a loop it is told for every start of its rounds. -/
def Told (makes : Rule → Product) (script : Script Rule) (sketch : Sketch) (answer : Bool)
    (after : Sketch) : Prop :=
  match script with
  | .loop body => Rounds makes body sketch answer after
  | script => Surveyed makes script sketch answer after

theorem Told.surveyed {script : Script Rule} {sketch after : Sketch} {answer : Bool}
    (h : Told makes script sketch answer after) : Surveyed makes script sketch answer after := by
  cases script with
  | loop body => exact Rounds.surveyed h
  | _ => exact h

private theorem mem_survey_live {stages : List Stage} {stage : Stage} {kind : TokenKind} (hmem : stage ∈ stages)
    (hallows : stage.kinds.allows kind = true) : stage ∈ survey.live stages :=
  List.mem_filter.mpr ⟨hmem, by simp [Kinds.isNone_of_allows hallows]⟩

private theorem meets_node {inner : List Stage} {outer : Tally} {kind : NodeKind} {shapes own : Shapes}
    {base parts : List Tree} {after : Sketch} {stage : Stage} (hmem : stage ∈ inner)
    (hstage : Meets own [] stage after)
    (hclose : (∀ tree ∈ after.parts.reverse, tree.Formed) →
      (∃ shape ∈ own, shape.Fits (Tree.pieces after.parts.reverse)) →
      outer.Tells shapes base (.node kind after.parts.reverse :: parts)) :
    ∃ stage ∈ enclose inner outer, stage.answer = true ∧
      Meets shapes base stage { after with parts := .node kind after.parts.reverse :: parts } := by
  refine ⟨_, List.mem_eraseDups.mpr (List.mem_map_of_mem hmem), rfl, hstage.kinds, ?_⟩
  dsimp only
  split
  · rename_i hall
    obtain ⟨hformed, hfits⟩ := hstage.tally.fits (List.all_eq_true.mp hall stage hmem)
    exact hclose hformed hfits
  · exact Tally.tells_lost

private theorem Surveyed.call (hmakers : Makers grammar makes) {rule : Rule} {sketch after : Sketch}
    {answer : Bool} (h : Surveyed makes (grammar rule) sketch answer after) :
    Surveyed makes (.call rule) sketch answer after := by
  intro start shapes base hmeets hlength
  have hrule (known : Kinds) (hallows : known.allows sketch.current = true) (shape : Shape) :=
    h ⟨true, known, ⟨[shape], none⟩⟩ [shape] sketch.parts
      ⟨hallows, Tally.tells_start [shape] sketch.parts⟩ hlength
  have hbears := hmakers rule
  rw [survey]
  cases hproduct : makes rule with
  | single pieces =>
    rw [hproduct] at hbears
    obtain ⟨⟨answer, kinds, left, last⟩, hmem, rfl, hafter⟩ := hrule _ (Kinds.allows_all _) .empty
    have hgood := List.all_eq_true.mp hbears _ hmem
    simp only [Bool.and_eq_true, decide_eq_true_eq] at hgood
    obtain ⟨⟨rfl, rfl⟩, hlast⟩ := hgood
    cases last with
    | none => cases hlast
    | some piece =>
      exact ⟨_, List.mem_map_of_mem (List.contains_iff_mem.mp hlast), rfl, Kinds.allows_all _,
        hmeets.tally.single hafter.tally⟩
  | several kinds shape other =>
    rw [hproduct, bears, Bool.and_eq_true] at hbears
    -- The parts make the shape that goes with the next token.
    have hmade (known : Kinds) (hallows : known.allows sketch.current = true) (shape : Shape)
        (hfills : bears.fills makes (grammar rule) known shape = true) :
        ∃ left ∈ Product.stages.made start.tally (start.kinds.meet known) shape,
          Tally.Tells ⟨left, none⟩ shapes base after.parts := by
      obtain ⟨stage, hmem, -, hafter⟩ := hrule known hallows shape
      rw [bears.fills, Kinds.isNone_of_allows hallows, Bool.false_or] at hfills
      have hboth : (start.kinds.meet known).allows sketch.current = true := by
        rw [Kinds.allows_meet, hmeets.kinds, hallows]
        rfl
      rw [Product.stages.made, Kinds.isNone_of_allows hboth]
      exact hmeets.tally.several hafter.tally (List.all_eq_true.mp hfills stage hmem)
    obtain ⟨left, hleft, htells⟩ : ∃ left ∈
        Product.stages.made start.tally (start.kinds.meet (.among kinds)) shape ++
          Product.stages.made start.tally (start.kinds.meet (.except kinds)) other,
        Tally.Tells ⟨left, none⟩ shapes base after.parts := by
      cases hcurrent : kinds.contains sketch.current with
      | true =>
        obtain ⟨left, hleft, htells⟩ := hmade (.among kinds) (by simpa using hcurrent) shape hbears.1
        exact ⟨left, List.mem_append_left _ hleft, htells⟩
      | false =>
        obtain ⟨left, hleft, htells⟩ := hmade (.except kinds) (by simpa using hcurrent) other hbears.2
        exact ⟨left, List.mem_append_right _ hleft, htells⟩
    refine ⟨⟨answer, .except [], ⟨left, none⟩⟩, ?_, rfl, Kinds.allows_all _, htells⟩
    refine List.mem_flatMap.mpr ⟨left, hleft, ?_⟩
    cases answer
    · exact List.mem_cons_of_mem _ List.mem_cons_self
    · exact List.mem_cons_self

/-- The survey of a script tells how every reading of it ends. -/
theorem Reads.told (hmakers : Makers grammar makes) {script : Script Rule} {sketch after : Sketch}
    {answer : Bool} (h : Reads grammar script sketch answer after) :
    Told makes script sketch answer after := by
  induction h with
  | answer value sketch =>
    intro start shapes base hmeets _
    exact ⟨_, List.mem_singleton_self _, rfl, hmeets.kinds, hmeets.tally⟩
  | bump hcurrent =>
    intro start shapes base hmeets _
    subst hcurrent
    exact ⟨_, List.mem_singleton_self _, rfl, Kinds.allows_all _, hmeets.tally.take⟩
  | @demand kinds sketch hcurrent =>
    intro start shapes base hmeets _
    have hboth : (start.kinds.meet (.among kinds)).allows sketch.current = true := by
      rw [Kinds.allows_meet, hmeets.kinds, Kinds.allows_among]
      exact hcurrent
    exact ⟨⟨true, _, start.tally⟩, mem_survey_live (List.mem_singleton_self _) hboth, rfl, hboth, hmeets.tally⟩
  | @advance sketch hcurrent =>
    intro start shapes base hmeets _
    exact ⟨_, List.mem_map_of_mem (Kinds.mem_members hmeets.kinds), rfl, Kinds.allows_all _,
      hmeets.tally.take⟩
  | report problem sketch =>
    intro start shapes base _ hlength
    exact absurd hlength (Nat.succ_ne_self _)
  | ask question sketch =>
    intro start shapes base hmeets _
    cases question with
    | «at» kinds =>
      cases hholds : sketch.holds (.at kinds) with
      | true =>
        have hboth : (start.kinds.meet (.among kinds)).allows sketch.current = true := by
          rw [Kinds.allows_meet, hmeets.kinds, Kinds.allows_among]
          exact hholds
        exact ⟨⟨true, _, start.tally⟩, mem_survey_live List.mem_cons_self hboth, rfl, hboth, hmeets.tally⟩
      | false =>
        have hboth : (start.kinds.meet (.except kinds)).allows sketch.current = true := by
          rw [Kinds.allows_meet, hmeets.kinds, Kinds.allows_except]
          exact Bool.not_eq_true' _ |>.mpr hholds
        exact ⟨⟨false, _, start.tally⟩, mem_survey_live (List.mem_cons_of_mem _ List.mem_cons_self) hboth, rfl,
          hboth, hmeets.tally⟩
    | atPair kinds second =>
      cases sketch.holds (.atPair kinds second)
      · exact ⟨_, List.mem_cons_of_mem _ List.mem_cons_self, rfl, hmeets.kinds, hmeets.tally⟩
      · exact ⟨_, List.mem_cons_self, rfl, hmeets.kinds, hmeets.tally⟩
  | call hrule ih => exact Surveyed.call hmakers ih.surveyed
  | seq hfirst hsecond ihfirst ihsecond =>
    intro start shapes base hmeets hlength
    obtain ⟨taken, htakes⟩ := hfirst.takes
    obtain ⟨more, hmore⟩ := hsecond.takes
    obtain ⟨hearly, hlate⟩ := htakes.problems_split hmore hlength
    obtain ⟨mid, hmid, -, hmeets⟩ := ihfirst.surveyed start shapes base hmeets hearly
    obtain ⟨stage, hstage, hanswer, hafter⟩ := ihsecond.surveyed mid shapes base hmeets hlate
    exact ⟨stage, List.mem_eraseDups.mpr (List.mem_flatMap.mpr ⟨mid, hmid, hstage⟩), hanswer, hafter⟩
  | yes htest hyes ihtest ihyes =>
    intro start shapes base hmeets hlength
    obtain ⟨taken, htakes⟩ := htest.takes
    obtain ⟨more, hmore⟩ := hyes.takes
    obtain ⟨hearly, hlate⟩ := htakes.problems_split hmore hlength
    obtain ⟨mid, hmid, hway, hmeets⟩ := ihtest.surveyed start shapes base hmeets hearly
    obtain ⟨stage, hstage, hanswer, hafter⟩ := ihyes.surveyed mid shapes base hmeets hlate
    refine ⟨stage, List.mem_eraseDups.mpr (List.mem_flatMap.mpr ⟨mid, hmid, ?_⟩), hanswer, hafter⟩
    rw [if_pos hway]
    exact hstage
  | no htest hno ihtest ihno =>
    intro start shapes base hmeets hlength
    obtain ⟨taken, htakes⟩ := htest.takes
    obtain ⟨more, hmore⟩ := hno.takes
    obtain ⟨hearly, hlate⟩ := htakes.problems_split hmore hlength
    obtain ⟨mid, hmid, hway, hmeets⟩ := ihtest.surveyed start shapes base hmeets hearly
    obtain ⟨stage, hstage, hanswer, hafter⟩ := ihno.surveyed mid shapes base hmeets hlate
    refine ⟨stage, List.mem_eraseDups.mpr (List.mem_flatMap.mpr ⟨mid, hmid, ?_⟩), hanswer, hafter⟩
    rw [if_neg (by simp [hway])]
    exact hstage
  | @node label body sketch after _ hbody ih =>
    intro start shapes base hmeets hlength
    obtain ⟨stage, hstage, -, hafter⟩ := ih.surveyed ⟨true, start.kinds, ⟨label.shapes, none⟩⟩
      label.shapes [] ⟨hmeets.kinds, Tally.tells_start _ _⟩ hlength
    refine meets_node hstage hafter fun hformed hfits => ?_
    split
    · obtain ⟨hown, hpiece⟩ := Label.fits_resolve ‹_› hfits
      rw [← hpiece]
      exact hmeets.tally.push (.node hown hformed)
    · exact Tally.tells_lost
  | @wrap kind body rest part parts problems after _ hbody ih =>
    intro start shapes base hmeets hlength
    obtain ⟨answer, kinds, left, last⟩ := start
    cases last with
    | none => exact ⟨_, List.mem_singleton_self _, rfl, meets_lost shapes base _⟩
    | some piece =>
      simp only [survey]
      rcases hmeets.tally with rfl | ⟨added, hparts, hformed, own, others, rfl, hpiece, hleft⟩
      · exact ⟨_, List.mem_singleton_self _, rfl, meets_lost shapes base _⟩
      · split
        · exact ⟨_, List.mem_singleton_self _, rfl, meets_lost shapes base _⟩
        obtain ⟨rfl, rfl⟩ := List.cons.inj hparts
        obtain ⟨hpart, hothers⟩ := List.forall_mem_cons.mp hformed
        have hinner : Tally.Tells ⟨[.ofKind kind], some piece⟩ [.ofKind kind] [] [part] :=
          .inr ⟨[part], rfl, List.forall_mem_singleton.mpr hpart, part, [], rfl, hpiece, rfl⟩
        obtain ⟨stage, hstage, -, hafter⟩ := ih.surveyed ⟨true, kinds, ⟨[.ofKind kind], some piece⟩⟩
          [.ofKind kind] [] ⟨hmeets.kinds, hinner⟩ hlength
        refine meets_node hstage hafter fun hformed hfits => .inr ⟨_ :: others, rfl, ?_, ?_⟩
        · exact List.forall_mem_cons.mpr ⟨.node (by simpa using hfits) hformed, hothers⟩
        · exact ⟨_, others, rfl, rfl, hleft⟩
  | @statement kind body sketch mid after _ hbody hafter ih =>
    intro start shapes base hmeets hlength
    obtain ⟨taken, htakes⟩ := hbody.takes
    obtain ⟨more, hmore, hstays⟩ := Sketch.Takes.finishStatement mid sketch.problems.length
    rw [hafter] at hmore hstays
    obtain ⟨hearly, -⟩ := htakes.problems_split hmore hlength
    obtain rfl := hstays hlength
    obtain ⟨stage, hstage, -, hafter⟩ := ih.surveyed ⟨true, start.kinds, ⟨[.ofKind kind], none⟩⟩
      [.ofKind kind] [] ⟨hmeets.kinds, Tally.tells_start _ _⟩ hearly
    have hkind : (if sketch.problems.length < after.problems.length then .error else kind) = kind :=
      if_neg (Nat.not_lt.mpr (Nat.le_of_eq hlength))
    rw [hkind]
    exact meets_node hstage hafter fun hformed hfits =>
      hmeets.tally.push (.node (by simpa using hfits) hformed)
  | stop hbody ih =>
    refine ⟨rfl, ?_⟩
    intro starts shapes base _ hstarts hlength
    obtain ⟨start, hstart, hmeets⟩ := hstarts
    obtain ⟨stage, hstage, hanswer, hafter⟩ := ih.surveyed start shapes base hmeets hlength
    exact ⟨start, hstart, stage, hstage, hanswer, hafter⟩
  | round hbody hless hloop ihbody ihloop =>
    obtain ⟨hanswer, hlater⟩ := ihloop
    refine ⟨hanswer, ?_⟩
    intro starts shapes base hleads hstarts hlength
    obtain ⟨start, hstart, hmeets⟩ := hstarts
    obtain ⟨taken, htakes⟩ := hbody.takes
    obtain ⟨more, hmore⟩ := hloop.takes
    obtain ⟨hearly, hlate⟩ := htakes.problems_split hmore hlength
    obtain ⟨stage, hstage, hyes, hmid⟩ := ihbody.surveyed start shapes base hmeets hearly
    refine hlater starts shapes base hleads ?_ hlate
    rcases hleads with hlost | hclosed
    · exact ⟨_, hlost, meets_lost shapes base _⟩
    · exact ⟨stage, hclosed start hstart stage hstage hyes, hmid⟩

end Script

end Syntax

end QuantumScript
