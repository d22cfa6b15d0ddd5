import QuantumScript.Analysis
import QuantumScript.Proofs.Walking.Extents
import QuantumScript.Proofs.Walking.Operations
/-!
# Nesting of scopes

A walk closes every scope that it opens, on a line no earlier than the one where it was opened, and
never fails to close one. Scopes that it opens inside one another lie inside one another. At the end the
global scope alone is open, and all its bindings are on lines that have been reached.
-/

namespace QuantumScript

namespace Scope

/-- The scope was opened on the first of the lines or later, and was closed on the last or before. -/
def ClosedWithin (first last : Nat) (scope : Scope) : Prop :=
  ∃ closed, scope.closedAt = some closed ∧
    first ≤ scope.openedAt ∧ scope.openedAt ≤ closed ∧ closed ≤ last

/-- The other scope lies inside the scope, and both are closed. -/
def Encloses (scope other : Scope) : Prop :=
  ∃ closed, scope.closedAt = some closed ∧ other.ClosedWithin scope.openedAt closed

/-- A scope and what becomes of it while it is neither opened nor closed. It may get bindings on the
lines. -/
structure Keeps (first last : Nat) (scope later : Scope) : Prop where
  openedAt : later.openedAt = scope.openedAt
  closedAt : later.closedAt = scope.closedAt
  parent : later.parent = scope.parent
  bindings : ∀ binding ∈ later.bindings,
    binding ∈ scope.bindings ∨ first ≤ binding.line ∧ binding.line ≤ last

variable {first last : Nat} {scope later : Scope}

theorem ClosedWithin.mono {first last earlier after : Nat} (h : scope.ClosedWithin first last)
    (hfirst : earlier ≤ first) (hlast : last ≤ after) : scope.ClosedWithin earlier after := by
  obtain ⟨closed, hclosed, hopen, hle, hend⟩ := h
  exact ⟨closed, hclosed, Nat.le_trans hfirst hopen, hle, Nat.le_trans hend hlast⟩

namespace Keeps

theorem refl (scope : Scope) : scope.Keeps first last scope :=
  ⟨rfl, rfl, rfl, fun _ hmem => .inl hmem⟩

theorem trans {final : Scope} (h : scope.Keeps first last later) (hmore : later.Keeps first last final) :
    scope.Keeps first last final := by
  refine ⟨hmore.openedAt.trans h.openedAt, hmore.closedAt.trans h.closedAt,
    hmore.parent.trans h.parent, ?_⟩
  intro binding hmem
  rcases hmore.bindings binding hmem with hmem | hline
  · exact h.bindings binding hmem
  · exact .inr hline

theorem mono {earlier after : Nat} (h : scope.Keeps first last later) (hfirst : earlier ≤ first)
    (hlast : last ≤ after) : scope.Keeps earlier after later := by
  refine ⟨h.openedAt, h.closedAt, h.parent, fun binding hmem => ?_⟩
  exact (h.bindings binding hmem).imp_right fun hline =>
    ⟨Nat.le_trans hfirst hline.1, Nat.le_trans hline.2 hlast⟩

theorem insert (scope : Scope) {binding : Binding} (h : first ≤ binding.line ∧ binding.line ≤ last) :
    scope.Keeps first last (scope.insert binding) := by
  refine ⟨by simp, by simp, by simp, ?_⟩
  intro other hmem
  rcases scope.insert_cases binding with ⟨_, heq⟩ | ⟨_, heq⟩
  · rw [heq] at hmem
    exact .inl hmem
  · rw [heq] at hmem
    rcases mem_insertSorted.mp hmem with rfl | hmem
    · exact .inr h
    · exact .inl hmem

private theorem closedWithin {lower upper : Nat} (h : scope.Keeps first last later)
    (hclosed : scope.ClosedWithin lower upper) : later.ClosedWithin lower upper := by
  unfold ClosedWithin
  rw [h.closedAt, h.openedAt]
  exact hclosed

theorem encloses {other next : Scope} (h : scope.Keeps first last later)
    (hother : other.Keeps first last next) (hencloses : scope.Encloses other) :
    later.Encloses next := by
  obtain ⟨closed, hclosed, hwithin⟩ := hencloses
  refine ⟨closed, h.closedAt.trans hclosed, ?_⟩
  rw [h.openedAt]
  exact hother.closedWithin hwithin

end Keeps

end Scope

namespace SymbolTable

/-- The scope stands right inside the one that was current before, or inside one that was opened since
then and that encloses it. -/
def StandsIn (table later : SymbolTable) (scope : Scope) : Prop :=
  scope.parent = some table.current ∨
    ∃ parent outer, scope.parent = some parent ∧ table.scopes.length ≤ parent ∧
      later.scopes[parent]? = some outer ∧ outer.Encloses scope

/-- What a part of a walk makes of a table: the open scopes are the same, and scopes opened in between
are closed on the lines, each in another or right in the current scope. -/
structure Nests (first last : Nat) (table later : SymbolTable) : Prop where
  inner : later.inner = table.inner
  kept : ∀ (id : Nat) (scope : Scope), table.scopes[id]? = some scope →
    ∃ next, later.scopes[id]? = some next ∧ scope.Keeps first last next
  opened : ∀ (id : Nat) (scope : Scope), later.scopes[id]? = some scope → table.scopes.length ≤ id →
    scope.ClosedWithin first last ∧ table.StandsIn later scope

namespace Nests

variable {first last : Nat} {table mid later : SymbolTable}

theorem current (h : Nests first last table later) : later.current = table.current := by
  rw [SymbolTable.current, h.inner]
  rfl

theorem length_le (h : Nests first last table later) : table.scopes.length ≤ later.scopes.length := by
  refine Nat.le_of_not_lt fun hless => ?_
  obtain ⟨next, hnext, _⟩ := h.kept later.scopes.length _ (List.getElem?_eq_getElem hless)
  rw [List.getElem?_eq_none (Nat.le_refl _)] at hnext
  cases hnext

private theorem of_kept (hinner : later.inner = table.inner)
    (hlength : later.scopes.length = table.scopes.length)
    (hkept : ∀ (id : Nat) (scope : Scope), table.scopes[id]? = some scope →
      ∃ next, later.scopes[id]? = some next ∧ scope.Keeps first last next) :
    Nests first last table later := by
  refine ⟨hinner, hkept, ?_⟩
  intro id scope hscope hle
  rw [List.getElem?_eq_none (hlength ▸ hle)] at hscope
  cases hscope

theorem refl (table : SymbolTable) : Nests first last table table :=
  of_kept rfl rfl fun _ scope hscope => ⟨scope, hscope, Scope.Keeps.refl scope⟩

theorem trans (h : Nests first last table mid) (hmore : Nests first last mid later) :
    Nests first last table later := by
  refine ⟨hmore.inner.trans h.inner, ?_, ?_⟩
  · intro id scope hscope
    obtain ⟨next, hnext, hkeeps⟩ := h.kept id scope hscope
    obtain ⟨final, hfinal, hthen⟩ := hmore.kept id next hnext
    exact ⟨final, hfinal, hkeeps.trans hthen⟩
  · intro id scope hscope hle
    by_cases hid : id < mid.scopes.length
    · -- A scope opened in the first part: the second keeps it and the one around it.
      obtain ⟨before, hbefore⟩ : ∃ before, mid.scopes[id]? = some before :=
        ⟨_, List.getElem?_eq_getElem hid⟩
      obtain ⟨next, hnext, hkeeps⟩ := hmore.kept id before hbefore
      obtain rfl : next = scope := Option.some.inj (hnext.symm.trans hscope)
      obtain ⟨hclosed, hstands⟩ := h.opened id before hbefore hle
      refine ⟨hkeeps.closedWithin hclosed, ?_⟩
      rcases hstands with hparent | ⟨parent, outer, hparent, hnew, houter, hencloses⟩
      · exact .inl (hkeeps.parent.trans hparent)
      · obtain ⟨final, hfinal, hthen⟩ := hmore.kept parent outer houter
        exact .inr ⟨parent, final, hkeeps.parent.trans hparent, hnew, hfinal,
          hthen.encloses hkeeps hencloses⟩
    · obtain ⟨hclosed, hstands⟩ := hmore.opened id scope hscope (Nat.le_of_not_lt hid)
      refine ⟨hclosed, ?_⟩
      rcases hstands with hparent | ⟨parent, outer, hparent, hnew, houter, hencloses⟩
      · exact .inl (hparent.trans (congrArg some h.current))
      · exact .inr ⟨parent, outer, hparent, Nat.le_trans h.length_le hnew, houter, hencloses⟩

theorem seek (table : SymbolTable) (line : Nat) : Nests first last table (table.seek line) :=
  of_kept rfl rfl fun _ scope hscope => ⟨scope, hscope, Scope.Keeps.refl scope⟩

theorem define (table : SymbolTable) {binding : Binding}
    (h : first ≤ binding.line ∧ binding.line ≤ last) :
    Nests first last table (table.define binding) := by
  have hscopes : (table.define binding).scopes =
      table.scopes.modify table.current fun scope => scope.insert binding := rfl
  refine of_kept rfl (by rw [hscopes, List.length_modify]) ?_
  intro id scope hscope
  rw [hscopes, List.getElem?_modify, hscope]
  refine ⟨_, rfl, ?_⟩
  split
  · exact Scope.Keeps.insert scope h
  · exact Scope.Keeps.refl scope

theorem of_binds (h : (Inference.Region.between first last).Binds table later) :
    Nests first last table later := by
  obtain ⟨operations, hallowed, rfl⟩ := h
  induction operations generalizing table with
  | nil => exact refl table
  | cons operation rest ih =>
    obtain ⟨hfirst, hrest⟩ := List.forall_mem_cons.mp hallowed
    refine trans ?_ (ih hrest)
    rcases hfirst with ⟨binding, rfl, hline⟩ | ⟨line, rfl, _⟩
    · exact define table hline
    · exact seek table line

theorem scope {name : String} {opened closed : Nat} (hfirst : first ≤ opened) (hle : opened ≤ closed)
    (hlast : closed ≤ last) (h : Nests opened closed (table.push name opened) mid) :
    Nests first last table (mid.step (.pop closed)) ∧
      ∃ id next, mid.pop closed = .ok (id, next) := by
  have hinner : mid.inner = table.scopes.length :: table.inner := h.inner
  have hpushed : (table.push name opened).scopes =
      table.scopes ++ [⟨name, opened, none, some table.current, table.openCount, []⟩] := rfl
  have hstep : (mid.step (.pop closed)).inner = table.inner ∧ (mid.step (.pop closed)).scopes =
      mid.scopes.modify table.scopes.length fun scope => { scope with closedAt := some closed } := by
    simp only [step, pop, hinner]
    exact ⟨rfl, rfl⟩
  -- What becomes of the new scope.
  obtain ⟨own, hown, hkeeps⟩ := h.kept table.scopes.length _ (by
    rw [hpushed, List.getElem?_append_right (Nat.le_refl _), Nat.sub_self]
    rfl)
  have hafter : (mid.step (.pop closed)).scopes[table.scopes.length]? =
      some { own with closedAt := some closed } := by
    rw [hstep.2, List.getElem?_modify_eq, hown]
    rfl
  have hothers {id : Nat} (hid : table.scopes.length ≠ id) :
      (mid.step (.pop closed)).scopes[id]? = mid.scopes[id]? := by
    rw [hstep.2, List.getElem?_modify_ne _ _ hid]
  refine ⟨⟨hstep.1, ?_, ?_⟩, ?_⟩
  · intro id scope hscope
    have hid := (List.getElem?_eq_some_iff.mp hscope).1
    obtain ⟨next, hnext, hkept⟩ := h.kept id scope (by
      rw [hpushed, List.getElem?_append_left hid, hscope])
    rw [hothers (Nat.ne_of_gt hid)]
    exact ⟨next, hnext, hkept.mono hfirst hlast⟩
  · intro id scope hscope hnew
    rcases Nat.eq_or_lt_of_le hnew with rfl | hlater
    · obtain rfl := Option.some.inj (hafter.symm.trans hscope)
      exact ⟨⟨closed, rfl, hkeeps.openedAt ▸ hfirst, hkeeps.openedAt ▸ hle, hlast⟩,
        .inl hkeeps.parent⟩
    · rw [hothers (Nat.ne_of_lt hlater)] at hscope
      have hlength : (table.push name opened).scopes.length = table.scopes.length + 1 := by
        rw [hpushed, List.length_append, List.length_singleton]
      obtain ⟨hclosed, hstands⟩ := h.opened id scope hscope (hlength ▸ hlater)
      refine ⟨hclosed.mono hfirst hlast, .inr ?_⟩
      rcases hstands with hparent | ⟨parent, outer, hparent, hle, houter, hencloses⟩
      · refine ⟨table.scopes.length, _, hparent, Nat.le_refl _, hafter, closed, rfl, ?_⟩
        exact hclosed.mono (Nat.le_of_eq hkeeps.openedAt) (Nat.le_refl _)
      · rw [hlength] at hle
        have hless : table.scopes.length < parent := hle
        exact ⟨parent, outer, hparent, Nat.le_of_lt hless,
          (hothers (Nat.ne_of_lt hless)).trans houter, hencloses⟩
  · simp only [pop, hinner]
    exact ⟨_, _, rfl⟩

end Nests

end SymbolTable

namespace Inference

open SymbolTable

/-- A part of a walk that keeps to some lines opens its scopes there, and closes all of them. -/
theorem Walk.nests {first last : Nat} {α : Type} {part : Inference α}
    (h : Walk (.between first last) part) (state : State) :
    Nests first last state.table (part.run state).2.table ∧
      (part.run state).2.faults = state.faults := by
  generalize hregion : Region.between first last = region at h
  induction h generalizing first last state with
  | pure value => exact ⟨Nests.refl _, rfl⟩
  | bind _ _ hfirst hnext =>
    obtain ⟨hearly, hfaults⟩ := hfirst state hregion
    obtain ⟨hlate, hmore⟩ := hnext _ _ hregion
    exact ⟨hearly.trans hlate, hmore.trans hfaults⟩
  | table => exact ⟨Nests.refl _, rfl⟩
  | change h =>
    subst hregion
    exact ⟨Nests.of_binds (h state.table), rfl⟩
  | report _ => exact ⟨Nests.refl _, rfl⟩
  | track f => exact ⟨Nests.refl _, rfl⟩
  | finish => exact ⟨Nests.refl _, rfl⟩
  | resolve site => exact ⟨Nests.refl _, rfl⟩
  | @within region name opened closed body hholds _ hbody =>
    subst hregion
    obtain ⟨hinner, hfaults⟩ := hbody { state with table := state.table.push name opened } rfl
    obtain ⟨hnests, id, next, hpop⟩ := Nests.scope hholds.1 hholds.2.1 hholds.2.2 hinner
    rw [run_within, State.table_close]
    refine ⟨hnests, ?_⟩
    rw [State.close, hpop]
    exact hfaults
  | @isolated region name line body hhas _ hbody =>
    subst hregion
    obtain ⟨hinner, hfaults⟩ := hbody { state with table := state.table.push name line } rfl
    obtain ⟨hnests, id, next, hpop⟩ := Nests.scope hhas.1 (Nat.le_refl line) hhas.2 hinner
    rw [run_isolated]
    dsimp only
    rw [State.table_close]
    refine ⟨hnests.trans (Nests.seek _ _), ?_⟩
    rw [State.close, hpop]
    exact hfaults

end Inference

namespace SymbolTable

/-- All builtins are bound on line zero. -/
theorem binds_initial (builtins : Bool) (last : Nat) :
    (Inference.Region.between 0 last).Binds empty (initial builtins) := by
  have hlines : ∀ binding ∈ Builtins.bindings, binding.line = 0 := by
    simp [Builtins.bindings, Builtins.line, or_imp, forall_and]
  refine ⟨_, ?_, initial_eq_run builtins⟩
  cases builtins with
  | false => exact nofun
  | true =>
    rw [if_pos rfl, List.forall_mem_map]
    intro binding hmem
    exact .inl ⟨binding, rfl, Nat.zero_le _, hlines binding hmem ▸ Nat.zero_le last⟩

/-- Where the global scope alone is open and all its bindings have been reached, a name means its last
version there. -/
private theorem lookup?_global {table : SymbolTable} {global : Scope} (hinner : table.inner = [])
    (hglobal : table.scopes[0]? = some global)
    (hreached : ∀ binding ∈ global.bindings, binding.line ≤ table.position) (name : String) :
    table.lookup? name = (global.versions name).getLast?.map fun binding => ⟨binding, 0, 0⟩ := by
  have hlatest : global.latestAt name table.position = (global.versions name).getLast? := by
    rw [Scope.latestAt, List.filter_eq_self.mpr]
    intro binding hmem
    exact decide_eq_true (hreached binding (List.mem_filter.mp hmem).1)
  rw [lookup?, live, hinner, List.nil_append, findIn, hglobal, Option.bind_some, hlatest]
  cases (global.versions name).getLast? <;> rfl

end SymbolTable

open SymbolTable

/-- Both passes keep scopes in order, on every text and whether or not the builtins are known. The first
opens none. In the second no scope fails to be closed, and at the end the global scope alone is open.
Every other scope was closed no earlier than it was opened, and lies inside the scope around it unless
this is the global one. All bindings of the global scope have been reached, so that each name means its
last version there. -/
theorem scopes_nest (builtins : Bool) (path : Option String) (text : List Char) :
    let source := Source.ofText path text
    let hoisted := Hoisting.run source.index source.script (initial builtins)
    let state := Inference.State.ofScript source.index source.script hoisted
    (hoisted.scopes.length = 1 ∧ hoisted.live = [0]) ∧
      state.table.live = [0] ∧ state.faults = [] ∧
      (∀ (id : Nat) (scope : Scope), state.table.scopes[id]? = some scope → id ≠ 0 →
        ∃ closed parent outer, scope.closedAt = some closed ∧ scope.openedAt ≤ closed ∧
          scope.parent = some parent ∧ state.table.scopes[parent]? = some outer ∧
          (parent ≠ 0 → ∃ outerClosed, outer.closedAt = some outerClosed ∧
            outer.openedAt ≤ scope.openedAt ∧ closed ≤ outerClosed)) ∧
      ∃ global, state.table.scopes[0]? = some global ∧ global.closedAt = none ∧
        (∀ binding ∈ global.bindings, binding.line ≤ state.table.position) ∧
        ∀ name, state.table.lookup? name =
          (global.versions name).getLast?.map fun binding => ⟨binding, 0, 0⟩ := by
  intro source hoisted state
  have hbounds : (Inference.Region.between 0 (source.index.lastLine source.script.extent)).BoundsAll
      source.index source.script.statements := Inference.bounds_ofText source.index text
  -- Nothing but binding happens before the walk.
  have hbinds : (Inference.Region.between 0 (source.index.lastLine source.script.extent)).Binds
      empty hoisted :=
    (binds_initial builtins _).trans (Inference.Region.Binds.hoistAll hbounds.has _)
  obtain ⟨hwalk, hfaults⟩ :=
    (Inference.walk_script source.index source.script hbounds (Nat.zero_le _)).nests (.start hoisted)
  have hnests : Nests 0 (source.index.lastLine source.script.extent) empty state.table :=
    (Nests.of_binds hbinds).trans hwalk
  have hposition : source.index.lastLine source.script.extent ≤ state.table.position :=
    Nat.le_max_right _ _
  have hinner : state.table.inner = [] := hnests.inner
  obtain ⟨global, hglobal, hkeeps⟩ := hnests.kept 0 _ rfl
  have hreached : ∀ binding ∈ global.bindings, binding.line ≤ state.table.position := by
    intro binding hmem
    rcases hkeeps.bindings binding hmem with hnone | hline
    · cases hnone
    · exact Nat.le_trans hline.2 hposition
  refine ⟨⟨hbinds.length_scopes, ?_⟩, ?_, hfaults, ?_, global, hglobal, hkeeps.closedAt, hreached,
    fun name => lookup?_global hinner hglobal hreached name⟩
  · rw [live, hbinds.inner]
    rfl
  · rw [live, hinner]
    rfl
  · intro id scope hscope hid
    obtain ⟨⟨closed, hclosed, _, hle, _⟩, hstands⟩ :=
      hnests.opened id scope hscope (Nat.pos_of_ne_zero hid)
    rcases hstands with hparent | ⟨parent, outer, hparent, _, houter, outerClosed, houterClosed,
      inner, hinner, hopened, _, hwithin⟩
    · exact ⟨closed, 0, global, hclosed, hle, hparent, hglobal, fun hne => absurd rfl hne⟩
    · obtain rfl := Option.some.inj (hclosed.symm.trans hinner)
      exact ⟨closed, parent, outer, hclosed, hle, hparent, houter,
        fun _ => ⟨outerClosed, houterClosed, hopened, hwithin⟩⟩

end QuantumScript
