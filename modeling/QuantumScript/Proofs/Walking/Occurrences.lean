import QuantumScript.Proofs.Parsing.Named
import QuantumScript.Proofs.Walking.Extents
/-!
# Statements in a script

All statements of a script, however deeply nested. Each of them is read from a tree of its own.
-/

namespace QuantumScript

namespace Ast

mutual

/-- The statements nested in the statement. -/
def Statement.nested : Statement → List Statement
  | .function _ _ _ _ _ body | .classDefinition _ _ _ _ body | .withStatement _ _ body => allSuite body
  | .ifStatement _ _ body others otherwise => allSuite body ++ allBranches others ++ allBlock otherwise
  | .whileStatement _ _ body otherwise | .forStatement _ _ _ body otherwise =>
    allSuite body ++ allBlock otherwise
  | .tryStatement _ body caught otherwise cleanup =>
    allSuite body ++ allHandlers caught ++ allBlock otherwise ++ allBlock cleanup
  | .expressionStatement _ _ _ _ _ | .passStatement _ | .breakStatement _ | .continueStatement _
  | .globalStatement _ _ _ | .returnStatement _ _ | .importStatement _ _ | .fromImportStatement _ _ _ _
  | .raiseStatement _ _ | .assertStatement _ _ | .delStatement _ _ => []

/-- The statements and all that are nested in them. -/
def allStatements : List Statement → List Statement
  | [] => []
  | first :: rest => first :: first.nested ++ allStatements rest

def allSuite : Option Suite → List Statement
  | none => []
  | some ⟨_, items⟩ => allStatements items

def allBranches : List Branch → List Statement
  | [] => []
  | ⟨_, _, body⟩ :: rest => allSuite body ++ allBranches rest

def allHandlers : List Handler → List Statement
  | [] => []
  | ⟨_, _, _, body⟩ :: rest => allSuite body ++ allHandlers rest

def allBlock : Option Block → List Statement
  | none => []
  | some ⟨_, body⟩ => allSuite body

end

/-- All statements of a script. -/
def Script.all (script : Script) : List Statement := allStatements script.statements

theorem mem_allStatements_of_mem {s : Statement} {items : List Statement} (h : s ∈ items) :
    s ∈ allStatements items := by
  induction items with
  | nil => cases h
  | cons first rest ih =>
    rw [allStatements]
    rcases List.mem_cons.mp h with rfl | h
    · exact List.mem_cons_self
    · exact List.mem_cons_of_mem _ (List.mem_append_right _ (ih h))

namespace Part

open Syntax

/-- The statements nested in the part. -/
def nested : Part → List Statement
  | .statement part => part.nested
  | .suite part => allSuite (some part)
  | .branch part => allBranches [part]
  | .handler part => allHandlers [part]
  | .block _ part => allBlock (some part)
  | .script part => part.all
  | _ => []

/-- All statements in the part, itself included. -/
def all (part : Part) : List Statement := part.statement?.toList ++ part.nested

section Picks

variable {parts : List Part} {s : Statement}

private theorem mem_picked {α : Type} {pick : Part → Option α} {gather : List α → List Statement}
    (hnil : gather [] = [])
    (hpick : ∀ part item rest, pick part = some item → s ∈ gather (item :: rest) →
      s ∈ part.all ∨ s ∈ gather rest)
    (h : s ∈ gather (parts.filterMap pick)) : ∃ part ∈ parts, s ∈ part.all := by
  induction parts with
  | nil =>
    rw [List.filterMap_nil, hnil] at h
    cases h
  | cons part rest ih =>
    have hlater (h : s ∈ gather (rest.filterMap pick)) : ∃ own ∈ part :: rest, s ∈ own.all := by
      obtain ⟨own, hmem, hall⟩ := ih h
      exact ⟨own, List.mem_cons_of_mem _ hmem, hall⟩
    cases hitem : pick part with
    | none =>
      rw [List.filterMap_cons_none hitem] at h
      exact hlater h
    | some item =>
      rw [List.filterMap_cons_some hitem] at h
      exact (hpick part item _ hitem h).elim (fun h => ⟨part, List.mem_cons_self, h⟩) hlater

private theorem mem_allStatements (h : s ∈ allStatements (parts.filterMap statement?)) :
    ∃ part ∈ parts, s ∈ part.all := by
  refine mem_picked rfl (fun part item rest hitem h => ?_) h
  cases part <;> cases hitem
  exact List.mem_append.mp h

private theorem mem_allBranches (h : s ∈ allBranches (parts.filterMap branch?)) :
    ∃ part ∈ parts, s ∈ part.all := by
  refine mem_picked rfl (fun part item rest hitem h => ?_) h
  cases part <;> cases hitem
  obtain ⟨extent, condition, body⟩ := item
  rw [allBranches, List.mem_append] at h
  exact h.imp_left (List.mem_append_left [])

private theorem mem_allHandlers (h : s ∈ allHandlers (parts.filterMap handler?)) :
    ∃ part ∈ parts, s ∈ part.all := by
  refine mem_picked rfl (fun part item rest hitem h => ?_) h
  cases part <;> cases hitem
  obtain ⟨extent, caught, name, body⟩ := item
  rw [allHandlers, List.mem_append] at h
  exact h.imp_left (List.mem_append_left [])

private theorem mem_allSuite (h : s ∈ allSuite (parts.findSome? suite?)) : ∃ part ∈ parts, s ∈ part.all := by
  cases hfound : parts.findSome? suite? with
  | none =>
    rw [hfound] at h
    cases h
  | some body =>
    obtain ⟨part, hmem, hpart⟩ := List.exists_of_findSome?_eq_some hfound
    rw [hfound] at h
    cases part <;> cases hpart
    exact ⟨_, hmem, h⟩

private theorem mem_allBlock {kind : NodeKind} (h : s ∈ allBlock (parts.findSome? (block? kind))) :
    ∃ part ∈ parts, s ∈ part.all := by
  cases hfound : parts.findSome? (block? kind) with
  | none =>
    rw [hfound] at h
    cases h
  | some body =>
    obtain ⟨part, hmem, hpart⟩ := List.exists_of_findSome?_eq_some hfound
    rw [hfound] at h
    cases part with
    | block own part =>
      rw [block?] at hpart
      split at hpart
      · obtain rfl := Option.some.inj hpart
        exact ⟨_, hmem, h⟩
      · cases hpart
    | _ => cases hpart

private theorem mem_nested_assemble {kind : NodeKind} {extent : Extent}
    (h : s ∈ (assemble kind extent parts).nested) : ∃ part ∈ parts, s ∈ part.all := by
  cases kind
  case file | suite => exact mem_allStatements h
  case function | classDefinition | withStatement | elseClause | finallyClause => exact mem_allSuite h
  case ifStatement =>
    rcases List.mem_append.mp h with h | h
    · exact (List.mem_append.mp h).elim mem_allSuite mem_allBranches
    · exact mem_allBlock h
  case whileStatement | forStatement => exact (List.mem_append.mp h).elim mem_allSuite mem_allBlock
  case tryStatement =>
    rcases List.mem_append.mp h with h | h
    · rcases List.mem_append.mp h with h | h
      · exact (List.mem_append.mp h).elim mem_allSuite mem_allHandlers
      · exact mem_allBlock h
    · exact mem_allBlock h
  case elifClause | exceptClause =>
    refine (List.mem_append.mp h).elim mem_allSuite ?_
    exact nofun
  all_goals cases h

end Picks

/-- Every part of a list is read from a tree of the list. -/
theorem exists_of_mem_ofTrees {start : Nat} {trees : List Tree} {part : Part}
    (h : part ∈ ofTrees start trees) : ∃ own, ∃ tree ∈ trees, ofTree own tree = part := by
  induction trees generalizing start with
  | nil =>
    rw [ofTrees] at h
    cases h
  | cons tree trees ih =>
    rw [ofTrees_cons] at h
    rcases List.mem_cons.mp h with rfl | h
    · exact ⟨start, tree, List.mem_cons_self, rfl⟩
    · obtain ⟨own, other, hmem, hother⟩ := ih h
      exact ⟨own, other, List.mem_cons_of_mem _ hmem, hother⟩

section Trees

variable {P : Tree → Prop}

mutual

/-- Each statement in a part is read from a tree, and what holds of the tree of the part and is passed on to
children holds of it. -/
theorem mem_all_ofTree (hinherits : ∀ kind children, P (.node kind children) → ∀ tree ∈ children, P tree)
    (start : Nat) (tree : Tree) (h : P tree) :
    ∀ s ∈ (ofTree start tree).all, ∃ start own, P own ∧ ofTree start own = .statement s := by
  match tree with
  | .token kind text => exact nofun
  | .node kind children =>
    intro s hmem
    rcases List.mem_append.mp hmem with hself | hnested
    · refine ⟨start, _, h, ?_⟩
      generalize ofTree start (.node kind children) = part at hself
      cases part with
      | statement part =>
        obtain rfl : s = part := List.mem_singleton.mp hself
        rfl
      | _ => cases hself
    · obtain ⟨part, hpart, hall⟩ := mem_nested_assemble hnested
      exact mem_all_ofTrees hinherits start children (hinherits kind children h) part hpart s hall

private theorem mem_all_ofTrees
    (hinherits : ∀ kind children, P (.node kind children) → ∀ tree ∈ children, P tree)
    (start : Nat) (trees : List Tree) (h : ∀ tree ∈ trees, P tree) :
    ∀ part ∈ ofTrees start trees, ∀ s ∈ part.all, ∃ start own, P own ∧ ofTree start own = .statement s := by
  match trees with
  | [] =>
    intro part hmem
    rw [ofTrees] at hmem
    cases hmem
  | tree :: trees =>
    obtain ⟨htree, htrees⟩ := List.forall_mem_cons.mp h
    rw [ofTrees_cons]
    exact List.forall_mem_cons.mpr
      ⟨mem_all_ofTree hinherits start tree htree, mem_all_ofTrees hinherits _ trees htrees⟩

end

end Trees

end Part

/-- Every statement of a script is read from a tree that is rooted and has plain names. -/
theorem Script.mem_all_ofText {text : List Char} {s : Statement}
    (h : s ∈ (Script.ofTree (Syntax.parse text).tree).all) :
    ∃ start own, (own.Rooted ∧ own.Named) ∧ Part.ofTree start own = .statement s := by
  refine Part.mem_all_ofTree (P := fun tree => tree.Rooted ∧ tree.Named) ?_ 0 (Syntax.parse text).tree
    ⟨Syntax.parse_rooted text, Syntax.parse_named text⟩ s ?_
  · rintro kind children ⟨⟨_, hrooted⟩, hnamed⟩ tree hmem
    cases hnamed with
    | node _ hchildren => exact ⟨Syntax.Tree.rootedAll_iff.mp hrooted tree hmem, hchildren tree hmem⟩
  · exact h

end Ast

namespace Inference

open Ast.Part Syntax

theorem boundsAll_of_forall {index : Text.LineIndex} {region : Region} {items : List Ast.Statement}
    (h : ∀ s ∈ items, region.Bounds index s) : region.BoundsAll index items := by
  induction items with
  | nil => trivial
  | cons first rest ih =>
    obtain ⟨hfirst, hrest⟩ := List.forall_mem_cons.mp h
    exact ⟨hfirst, ih hrest⟩

/-- All that stands in a statement of a script is on the lines of the statement. -/
theorem bounds_of_mem {text : List Char} {s : Ast.Statement} (index : Text.LineIndex)
    (h : s ∈ (Ast.Script.ofTree (parse text).tree).all) {first last : Nat}
    (hfirst : first ≤ index.firstLine s.extent) (hlast : index.lastLine s.extent ≤ last) :
    (Region.between first last).Bounds index s := by
  obtain ⟨start, tree, ⟨hrooted, _⟩, htree⟩ := Ast.Script.mem_all_ofText h
  have hstart := start_ofTree start tree
  have hbounds := @boundsPart_ofTree index start tree hrooted first last
  rw [htree] at hstart hbounds
  refine hbounds (hstart ▸ hfirst) fun hseen => ?_
  rw [← Ast.Extent.stop_core hseen]
  exact hlast

/-- The statements of a block start no earlier than the block, and if they all start below a line then
all that stands in them is below it. -/
private theorem bounds_suite_ofTree (index : Text.LineIndex) {start : Nat} {tree : Tree} (hrooted : tree.Rooted)
    {part : Ast.Suite} (h : ofTree start tree = .suite part) :
    (∀ s ∈ part.statements, index.line start ≤ index.firstLine s.extent) ∧
      ∀ first, (∀ s ∈ part.statements, first ≤ index.firstLine s.extent) →
        ∃ last, (Region.between first last).BoundsAll index part.statements := by
  cases tree with
  | token kind text => cases h
  | node kind children =>
    rw [ofTree] at h
    have hkind : kind = .suite := by
      cases kind <;> first | rfl | cases h
    subst hkind
    obtain rfl := Ast.Part.suite.inj h
    -- Each statement is read from a child, between the ends of the block.
    have hread : ∀ s ∈ (ofTrees start children).filterMap statement?,
        s.extent.Within start (start + Tree.byteLengthAll children) ∧
          ∃ own, ∃ child ∈ children, ofTree own child = .statement s := by
      intro s hmem
      obtain ⟨part, hpart, hs⟩ := List.mem_filterMap.mp hmem
      have hwithin := within_ofTrees start children part hpart
      obtain ⟨own, child, hchild, hown⟩ := exists_of_mem_ofTrees hpart
      cases part <;> cases hs
      exact ⟨hwithin, own, child, hchild, hown⟩
    refine ⟨fun s hmem => index.line_mono (hread s hmem).1.first_le, fun first hfirst => ?_⟩
    refine ⟨index.line (start + Tree.byteLengthAll children), boundsAll_of_forall fun s hmem => ?_⟩
    obtain ⟨hwithin, own, child, hchild, hown⟩ := hread s hmem
    have hstart : s.extent.span.start = own := by
      have hspan := start_ofTree own child
      rwa [hown] at hspan
    have hline : first ≤ index.line own := hstart ▸ hfirst s hmem
    have hlast : (ofTree own child).extent.first.isSome = true →
        index.line (ofTree own child).extent.last ≤ index.line (start + Tree.byteLengthAll children) := by
      rw [hown]
      exact fun _ => index.line_mono (Nat.le_trans hwithin.last_le hwithin.stop_le)
    have hbounds := boundsPart_ofTree index own child (Tree.rootedAll_iff.mp hrooted.2 child hchild) hline hlast
    rwa [hown] at hbounds

/-- The statements in the body of a function start no earlier than the function. If they all start below
a line then all that stands in them is below it. -/
theorem bounds_body {text : List Char} {extent : Ast.Extent} {decorated : List Ast.Holder}
    {name : Option Ast.Name} {items : Option Ast.Parameters} {returns : Option Ast.Holder}
    {body : Option Ast.Suite} (index : Text.LineIndex)
    (h : .function extent decorated name items returns body ∈ (Ast.Script.ofTree (parse text).tree).all) :
    (∀ s ∈ Ast.statementsOf body, index.firstLine extent ≤ index.firstLine s.extent) ∧
      ∀ first, (∀ s ∈ Ast.statementsOf body, first ≤ index.firstLine s.extent) →
        ∃ last, (Region.between first last).BoundsSuite index body := by
  obtain ⟨start, tree, ⟨hrooted, _⟩, htree⟩ := Ast.Script.mem_all_ofText h
  cases body with
  | none => exact ⟨nofun, fun first _ => ⟨0, trivial⟩⟩
  | some part =>
    obtain ⟨whole, statements⟩ := part
    cases tree with
    | token kind text => cases htree
    | node kind children =>
      rw [ofTree] at htree
      have hkind : kind = .function := by
        cases kind <;> first | rfl | cases htree
      subst hkind
      obtain ⟨rfl, _, _, _, _, hbody⟩ := Ast.Statement.function.inj (Ast.Part.statement.inj htree)
      obtain ⟨own, hown, hpart⟩ := List.exists_of_findSome?_eq_some hbody
      have hwithin := within_ofTrees start children own hown
      obtain ⟨place, child, hchild, rfl⟩ := exists_of_mem_ofTrees hown
      have hsuite : ofTree place child = .suite ⟨whole, statements⟩ := by
        generalize ofTree place child = own at hpart
        cases own <;> cases hpart
        rfl
      have hplace : index.line start ≤ index.line place := by
        have hspan := start_ofTree place child
        exact index.line_mono (hspan ▸ hwithin.first_le)
      obtain ⟨hstarts, hbounds⟩ :=
        bounds_suite_ofTree index (Tree.rootedAll_iff.mp hrooted.2 child hchild) hsuite
      exact ⟨fun s hmem => Nat.le_trans hplace (hstarts s hmem), hbounds⟩

end Inference

end QuantumScript
