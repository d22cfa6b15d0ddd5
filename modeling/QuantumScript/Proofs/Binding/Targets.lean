import Mathlib
import QuantumScript.Proofs.Binding.Tracking
import QuantumScript.Proofs.Binding.Values
import QuantumScript.Proofs.Walking.Occurrences
/-!
# What an assignment binds

An assignment binds the names that are its targets and those in its lists of targets. It binds no other
name, unless there is a target without a name that does not start at one: then the text of the first token
of this target is bound as if it were a name.
-/

namespace QuantumScript

namespace Syntax.Tree

theorem bareAll_eq_singleton {trees : List Tree} {kind : TokenKind} {text : List Char}
    (h : bareAll trees = [.token kind text]) :
    ∃ before after, trees = before ++ .token kind text :: after ∧
      ∀ tree ∈ before ++ after, tree.isTrivia = true := by
  induction trees with
  | nil => cases h
  | cons tree trees ih =>
    rw [bareAll] at h
    split at h
    · rename_i htrivia
      obtain ⟨before, after, rfl, hrest⟩ := ih h
      exact ⟨tree :: before, after, rfl, List.forall_mem_cons.mpr ⟨htrivia, hrest⟩⟩
    · obtain ⟨htree, hrest⟩ := List.cons.inj h
      refine ⟨[], trees, ?_, ?_⟩
      · cases tree <;> cases htree
        rfl
      · intro other hmem
        rw [List.nil_append] at hmem
        refine Classical.byContradiction fun hsolid => ?_
        have hbare := bare_mem_bareAll hmem (Bool.eq_false_iff.mpr hsolid)
        rw [hrest] at hbare
        cases hbare

end Syntax.Tree

namespace Ast

open Syntax

namespace Part

private theorem unseen_ofTrees (start : Nat) {trees : List Tree} (h : ∀ tree ∈ trees, tree.isTrivia = true) :
    ∀ part ∈ ofTrees start trees, part.significantLeaf? = none ∧ part.extent.first = none := by
  intro part hpart
  obtain ⟨own, tree, hmem, rfl⟩ := exists_of_mem_ofTrees hpart
  have htrivia := h tree hmem
  cases tree with
  | node => cases htrivia
  | token kind text =>
    have hkind : kind.isTrivia = true := htrivia
    constructor
    · simp [ofTree, significantLeaf?, hkind]
    · simp [ofTree, extent, leafExtent, isLayout, hkind]

private theorem ident_ofTree {start : Nat} {tree : Tree} {part : Name} (hnamed : tree.Named)
    (h : ofTree start tree = .expr (.name part)) :
    ∃ leaf, part.ident = some leaf ∧ part.extent.first = some leaf := by
  cases hnamed with
  | token kind text => cases h
  | @node kind children hname _ =>
    rw [ofTree] at h
    have hkind : kind = .name := by
      cases kind <;> first | rfl | cases h
    subst hkind
    obtain ⟨text, hbare⟩ := hname rfl
    obtain ⟨before, after, rfl, htrivia⟩ := Tree.bareAll_eq_singleton hbare
    obtain ⟨hbefore, hafter⟩ := List.forall_mem_append.mp htrivia
    rw [ofTrees_append, ofTrees_cons] at h
    obtain rfl := Expr.name.inj (Part.expr.inj h)
    let leaf : Leaf :=
      ⟨.name, String.ofList text, ⟨start + Tree.byteLengthAll before,
        start + Tree.byteLengthAll before + Text.byteLength text⟩⟩
    have hnone (start : Nat) {trees : List Tree} (h : ∀ tree ∈ trees, tree.isTrivia = true) :
        (ofTrees start trees).filterMap significantLeaf? = [] ∧
          (ofTrees start trees).filter (fun part => part.extent.first.isSome) = [] := by
      have hunseen := unseen_ofTrees start h
      constructor
      · exact List.filterMap_eq_nil_iff.mpr fun part hmem => (hunseen part hmem).1
      · exact List.filter_eq_nil_iff.mpr fun part hmem => by simp [(hunseen part hmem).2]
    refine ⟨leaf, ?_, ?_⟩
    · rw [List.filterMap_append, (hnone _ hbefore).1]
      rfl
    · rw [extentOf]
      dsimp only
      rw [List.filter_append, (hnone _ hbefore).2]
      rfl

end Part

/-- The targets and the value of an expression statement that are names start with the token of the
name. -/
private theorem ident_of_mem_all {text : List Char} {extent : Extent} {items : List Expr}
    {assigns augments : Bool} {hint : Option Holder}
    (h : .expressionStatement extent items assigns augments hint ∈
      (Script.ofTree (Syntax.parse text).tree).all) :
    ∀ part, .name part ∈ items → ∃ leaf, part.ident = some leaf ∧ part.extent.first = some leaf := by
  obtain ⟨start, tree, ⟨_, hnamed⟩, htree⟩ := Script.mem_all_ofText h
  cases hnamed with
  | token kind text => cases htree
  | @node kind children _ hchildren =>
    rw [Part.ofTree] at htree
    have hkind : kind = .expressionStatement := by
      cases kind <;> first | rfl | cases htree
    subst hkind
    obtain ⟨_, rfl, _⟩ := Statement.expressionStatement.inj (Part.statement.inj htree)
    intro part hmem
    obtain ⟨own, hown, hexpr⟩ := List.mem_filterMap.mp hmem
    obtain ⟨place, child, hchild, rfl⟩ := Part.exists_of_mem_ofTrees hown
    have hname : Part.ofTree place child = .expr (.name part) := by
      generalize Part.ofTree place child = own at hexpr
      cases own <;> cases hexpr
      rfl
    exact Part.ident_ofTree (hchildren child hchild) hname

/-- The target binds the name: it is the name, or a list of targets with the name in it. A target that has
no name in it binds the text of its first token, unless it starts at a name. -/
def Expr.Binds (index : Text.LineIndex) (target : Expr) (name : String) : Prop :=
  name ∈ target.boundLeaves.map Leaf.text ∨
    (target.boundLeaves = [] ∧ target.isMarked = false ∧ (index.firstSite target.extent).text = name)

theorem Expr.binds_iff (index : Text.LineIndex) {target : Expr} (name : String)
    (h : ∀ part, target = .name part → ∃ leaf, part.ident = some leaf ∧ part.extent.first = some leaf) :
    target.Binds index name ↔
      name ∈ target.listed.map Leaf.text ∨ target.late? index = some name := by
  have hlist (e : Expr) (hlisted : e.listed = e.boundLeaves)
      (hmarked : e.isMarked = !e.boundLeaves.isEmpty) :
      e.Binds index name ↔ name ∈ e.listed.map Leaf.text ∨ e.late? index = some name := by
    rw [Binds, late?, hlisted, hmarked]
    by_cases hnone : e.boundLeaves = [] <;> simp [hnone]
  cases target with
  | name part =>
    obtain ⟨leaf, hident, hfirst⟩ := h part rfl
    have hsite : (index.firstSite part.extent).text = leaf.text := by
      rw [Text.LineIndex.firstSite, hfirst]
      rfl
    simp [Binds, listed, late?, isMarked, boundLeaves, extent, hident, hsite, eq_comm]
  | expressionList extent items | list extent items | parenthesized extent items =>
    exact hlist _ rfl rfl
  | _ => simp [Binds, listed, late?, boundLeaves]

end Ast

namespace SymbolTable

private theorem scopes_foldl_define_seek (bindings : List Binding) (table : SymbolTable) (line : Nat) :
    (bindings.foldl define (table.seek line)).scopes = (bindings.foldl define table).scopes := by
  have hboth (left right : SymbolTable) (hscopes : left.scopes = right.scopes)
      (hcurrent : left.current = right.current) :
      (bindings.foldl define left).scopes = (bindings.foldl define right).scopes := by
    induction bindings generalizing left right with
    | nil => exact hscopes
    | cons binding rest ih =>
      refine ih _ _ ?_ hcurrent
      show left.scopes.modify left.current _ = right.scopes.modify right.current _
      rw [hscopes, hcurrent]
  exact hboth _ _ rfl rfl

/-- Bindings go to the current scope. -/
theorem getElem?_foldl_define (bindings : List Binding) (table : SymbolTable) (id : Nat) :
    (bindings.foldl define table).scopes[id]? =
      if id = table.current then table.scopes[id]?.map fun scope => bindings.foldl Scope.insert scope
      else table.scopes[id]? := by
  induction bindings generalizing table with
  | nil => simp
  | cons binding rest ih =>
    have hscopes : (table.define binding).scopes =
        table.scopes.modify table.current fun scope => scope.insert binding := rfl
    have hcurrent : (table.define binding).current = table.current := rfl
    rw [List.foldl_cons, ih, hscopes, hcurrent, List.getElem?_modify]
    by_cases hid : id = table.current
    · subst hid
      simp [Function.comp_def]
    · simp [hid, Ne.symm hid]

end SymbolTable

namespace Scope

private theorem grows_foldl_insert (scope : Scope) (bindings : List Binding) :
    scope.Grows (bindings.foldl Scope.insert scope) := by
  induction bindings generalizing scope with
  | nil => exact Grows.refl scope
  | cons binding rest ih => exact (scope.grows_insert binding).trans (ih _)

private theorem versions_foldl_insert_ne {scope : Scope} (h : scope.Ordered) {bindings : List Binding}
    {name : String} (hname : ∀ binding ∈ bindings, binding.name ≠ name) :
    (bindings.foldl Scope.insert scope).versions name = scope.versions name := by
  induction bindings generalizing scope with
  | nil => rfl
  | cons binding rest ih =>
    obtain ⟨hfirst, hrest⟩ := List.forall_mem_cons.mp hname
    rw [List.foldl_cons, ih (h.insert binding) hrest, versions_insert_ne h hfirst]

/-- A name that is bound has a version on the line. -/
theorem exists_version_foldl_insert (scope : Scope) {bindings : List Binding} {binding : Binding}
    (h : binding ∈ bindings) :
    ∃ version ∈ (bindings.foldl Scope.insert scope).versions binding.name, version.line = binding.line := by
  induction bindings generalizing scope with
  | nil => cases h
  | cons first rest ih =>
    rcases List.mem_cons.mp h with rfl | h
    · obtain ⟨version, hmem, hline⟩ := scope.exists_version_insert binding
      exact ⟨version, (grows_foldl_insert _ rest).versions _ |>.mem hmem, hline⟩
    · exact ih (scope.insert first) h

end Scope

namespace Inference

open SymbolTable
open Text (LineIndex)

/-- What an assignment leaves of the table: the names listed in the targets are bound, then those that are
left to the end of the statement. -/
private theorem inside_assignment (index : LineIndex) (owner : Option ClassType) (extent : Ast.Extent)
    (left : List Ast.Expr) (value : Ast.Expr) (hint : Option Ast.Holder) (state : State) :
    let line := index.firstLine extent
    ∃ type, Inside line
      ((Binding.listed line left ++ Binding.all (state.lateNames index left) type line).foldl
        SymbolTable.define (state.table.seek (line - 1))) []
      ((statement index owner
        (.expressionStatement extent (left ++ [value]) true false hint)).run state).2.table := by
  intro line
  obtain ⟨type, hrun⟩ := run_assignment index owner extent left value hint state
  have hlocal : Local line false (true && value.startsAtName) (expr index line true value) :=
    local_expr index true value
  have hstays := hlocal.stays_self (state.atValue index line left value)
  have hpast := (inside_atValue index line left value state).trans hstays.table
  refine ⟨type, ?_⟩
  rw [hrun, List.foldl_append]
  exact hpast.foldl_define _

/-- An assignment in a script binds in the current scope the names that are its targets, and those in its
lists of targets. It binds no other name there, unless a target has no name in it and does not start at a
name: of such a target the text of its first token is bound. No other scope that was there changes, and no
scope is left open. No statement leaves targets over for the next one to bind. -/
theorem assignment_binds (text : List Char) (index : LineIndex) (owner : Option ClassType)
    (extent : Ast.Extent) (left : List Ast.Expr) (value : Ast.Expr) (hint : Option Ast.Holder)
    (hmem : .expressionStatement extent (left ++ [value]) true false hint ∈
      (Ast.Script.ofTree (Syntax.parse text).tree).all)
    (state : State) (hcoherent : Coherent state.table.scopes state.table.live)
    (hidle : state.tracker.Idle) :
    let line := index.firstLine extent
    let later := ((statement index owner
      (.expressionStatement extent (left ++ [value]) true false hint)).run state).2
    (∀ own s, Idles (statement index own s)) ∧ later.table.live = state.table.live ∧
      (∀ id < state.table.scopes.length, id ≠ state.table.current →
        later.table.scopes[id]? = state.table.scopes[id]?) ∧
      ∃ scope grown, state.table.scopes[state.table.current]? = some scope ∧
        later.table.scopes[state.table.current]? = some grown ∧
        ∀ name, ((∃ target ∈ left, target.Binds index name) →
            ∃ version ∈ grown.versions name, version.line = line) ∧
          ((∀ target ∈ left, ¬target.Binds index name) → grown.versions name = scope.versions name) := by
  intro line later
  obtain ⟨type, hinside⟩ := inside_assignment index owner extent left value hint state
  let bindings := Binding.listed line left ++ Binding.all (state.lateNames index left) type line
  have hline : ∀ binding ∈ bindings, binding.line = line := by
    intro binding hmem
    rcases List.mem_append.mp hmem with hmem | hmem
    all_goals
      obtain ⟨name, _, rfl⟩ := List.mem_map.mp hmem
      rfl
  have hbinds (name : String) : (∃ binding ∈ bindings, binding.name = name) ↔
      ∃ target ∈ left, target.Binds index name := by
    have hident := Ast.ident_of_mem_all hmem
    have htarget (target : Ast.Expr) (htarget : target ∈ left) := Ast.Expr.binds_iff index name
      fun part hpart => hident part (hpart ▸ List.mem_append_left _ htarget)
    have hlate : state.lateNames index left = left.filterMap (Ast.Expr.late? index) := by
      rw [State.lateNames, hidle]
      rfl
    constructor
    · rintro ⟨binding, hbinding, rfl⟩
      rcases List.mem_append.mp hbinding with hbinding | hbinding
      · obtain ⟨name, hname, rfl⟩ := List.mem_map.mp hbinding
        obtain ⟨leaf, hleaf, rfl⟩ := List.mem_map.mp hname
        obtain ⟨target, hleft, hlisted⟩ := List.mem_flatMap.mp hleaf
        exact ⟨target, hleft, (htarget target hleft).mpr (.inl (List.mem_map_of_mem hlisted))⟩
      · obtain ⟨name, hname, rfl⟩ := List.mem_map.mp hbinding
        rw [hlate] at hname
        obtain ⟨target, hleft, hlate⟩ := List.mem_filterMap.mp hname
        exact ⟨target, hleft, (htarget target hleft).mpr (.inr hlate)⟩
    · rintro ⟨target, hleft, hbinds⟩
      rcases (htarget target hleft).mp hbinds with hlisted | hlast
      · obtain ⟨leaf, hleaf, rfl⟩ := List.mem_map.mp hlisted
        have hname := List.mem_map_of_mem (f := Ast.Leaf.text) (List.mem_flatMap.mpr ⟨target, hleft, hleaf⟩)
        exact ⟨⟨leaf.text, .any, line⟩, List.mem_append_left _ (List.mem_map_of_mem hname), rfl⟩
      · have hname := List.mem_filterMap.mpr ⟨target, hleft, hlast⟩
        rw [← hlate] at hname
        exact ⟨⟨name, type, line⟩, List.mem_append_right _ (List.mem_map_of_mem hname), rfl⟩
  -- Below the scopes that were there the table is that of the bindings alone.
  have hscopes : ∀ id < state.table.scopes.length, later.table.scopes[id]? =
      if id = state.table.current then
        state.table.scopes[id]?.map fun scope => bindings.foldl Scope.insert scope
      else state.table.scopes[id]? := by
    intro id hid
    have hlength : id < (bindings.foldl SymbolTable.define (state.table.seek (line - 1))).scopes.length := by
      rw [length_foldl_define]
      exact hid
    rw [hinside.scopes hlength, scopes_foldl_define_seek, getElem?_foldl_define]
  have hcurrent : state.table.current < state.table.scopes.length :=
    hcoherent.lt_of_mem (List.mem_of_mem_head? state.table.head?_live)
  refine ⟨fun own s => idles_statement index own s, ?_, ?_, ?_⟩
  · rw [hinside.live, live_foldl_define]
    rfl
  · intro id hid hother
    rw [hscopes id hid, if_neg hother]
  obtain ⟨scope, hscope⟩ : ∃ scope, state.table.scopes[state.table.current]? = some scope :=
    ⟨_, List.getElem?_eq_getElem hcurrent⟩
  refine ⟨scope, bindings.foldl Scope.insert scope, hscope, ?_, ?_⟩
  · rw [hscopes _ hcurrent, if_pos rfl, hscope]
    rfl
  intro name
  constructor
  · intro htarget
    obtain ⟨binding, hmem, rfl⟩ := (hbinds name).mpr htarget
    obtain ⟨version, hversion, hversionLine⟩ := Scope.exists_version_foldl_insert _ hmem
    exact ⟨version, hversion, hversionLine.trans (hline binding hmem)⟩
  · intro hnone
    refine Scope.versions_foldl_insert_ne (hcoherent.ordered _ _ hscope) ?_
    rintro binding hmem rfl
    obtain ⟨target, hleft, htarget⟩ := (hbinds binding.name).mp ⟨binding, hmem, rfl⟩
    exact hnone target hleft htarget

/-- The statement `[x]=1` binds `x`, and no name for the bracket that it starts with. -/
theorem list_target_binds :
    let text := "[x]=1".toList
    ∃ s ∈ (Ast.Script.ofTree (Syntax.parse text).tree).all,
      let later := ((statement (.ofText text) none s).run (.start (initial false))).2
      ∃ grown, later.table.scopes[0]? = some grown ∧
        (∃ version ∈ grown.versions "x", version.line = 1) ∧ grown.versions "[" = [] := by
  intro text
  let bracket : Ast.Leaf := ⟨.symbol .leftBracket, "[", ⟨0, 1⟩⟩
  let name : Ast.Leaf := ⟨.name, "x", ⟨1, 2⟩⟩
  let number : Ast.Leaf := ⟨.integer, "1", ⟨4, 5⟩⟩
  let target : Ast.Expr := .list ⟨⟨0, 3⟩, some bracket, 3⟩ [.name ⟨⟨⟨1, 2⟩, some name, 2⟩, some name⟩]
  let value : Ast.Expr := .literal ⟨⟨4, 5⟩, some number, 5⟩ [number]
  let s : Ast.Statement :=
    .expressionStatement ⟨⟨0, 5⟩, some bracket, 5⟩ ([target] ++ [value]) true false none
  have hall : (Ast.Script.ofTree (Syntax.parse text).tree).all = [s] := by cbv
  have hmem : s ∈ (Ast.Script.ofTree (Syntax.parse text).tree).all := hall ▸ List.mem_singleton_self s
  refine ⟨s, hmem, ?_⟩
  obtain ⟨_, _, _, scope, grown, hscope, hgrown, hnames⟩ := assignment_binds text (.ofText text) none
    _ [target] value none hmem (.start (initial false)) (coherent_initial false) rfl
  have hbound : target.boundLeaves = [name] := rfl
  refine ⟨grown, hgrown, ?_, ?_⟩
  · have hx : target.Binds (.ofText text) "x" := .inl (by simp [hbound, name])
    exact (hnames "x").1 ⟨target, List.mem_singleton_self _, hx⟩
  · have hother : ¬target.Binds (.ofText text) "[" := by simp [Ast.Expr.Binds, hbound, name]
    obtain rfl := Option.some.inj hscope
    exact (hnames "[").2 (List.forall_mem_singleton.mpr hother)

end Inference

end QuantumScript
