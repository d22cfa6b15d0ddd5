import QuantumScript.Builtins
import QuantumScript.Proofs.Scoping.Versions
/-!
# Runs of the symbol table

Whatever is asked of a table, its scopes, its open scopes and its bindings fit together: the open
scopes are those that are not closed, each stands inside the next one outwards, and the parents of any
scope lead to the global one.
-/

namespace QuantumScript

namespace SymbolTable

/-- What can be done to a table. -/
inductive Operation
  | push (name : String) (line : Nat)
  | pop (line : Nat)
  | define (binding : Binding)
  | seek (line : Nat)
  deriving DecidableEq, Repr

/-- A request that fails leaves the table as it is. -/
def step (table : SymbolTable) : Operation → SymbolTable
  | .push name line => table.push name line
  | .pop line =>
    match table.pop line with
    | .ok (_, next) => next
    | .error _ => table
  | .define binding => table.define binding
  | .seek line => table.seek line

def run (table : SymbolTable) (operations : List Operation) : SymbolTable :=
  operations.foldl step table

theorem run_append (table : SymbolTable) (operations more : List Operation) :
    table.run (operations ++ more) = (table.run operations).run more := List.foldl_append

theorem head?_live (table : SymbolTable) : table.live.head? = some table.current := by
  unfold live current
  cases table.inner <;> rfl

/-- Closing does nothing in the global scope, else it takes the innermost scope from the open ones. -/
theorem step_pop (table : SymbolTable) (line : Nat) :
    (table.live = [0] ∧ table.step (.pop line) = table) ∨
      ∃ id outer, table.live = id :: outer ∧ outer ≠ [] ∧
        (table.step (.pop line)).live = outer ∧
        (table.step (.pop line)).scopes =
          table.scopes.modify id (fun scope => { scope with closedAt := some line }) ∧
        (table.step (.pop line)).position = max table.position line := by
  cases hinner : table.inner with
  | nil =>
    refine .inl ⟨by simp [live, hinner], ?_⟩
    simp [step, pop, hinner]
  | cons id outer =>
    refine .inr ⟨id, outer ++ [0], by simp [live, hinner], by simp, ?_⟩
    simp [step, pop, hinner, live, reach, seek]

/-- The scopes, and the open ones among them with the innermost first, fit together. -/
structure Coherent (scopes : List Scope) (live : List Nat) : Prop where
  global_live : live.getLast? = some 0
  decreasing : live.Pairwise (· > ·)
  /-- An open scope stands inside the next one outwards, at the depth of its place. -/
  stacked : ∀ (id : Nat) (outer : List Nat), id :: outer <:+ live → ∃ scope, scopes[id]? = some scope ∧
    scope.parent = outer.head? ∧ scope.depth = outer.length
  open_iff : ∀ (id : Nat) (scope : Scope), scopes[id]? = some scope → (scope.closedAt = none ↔ id ∈ live)
  global : ∃ scope, scopes[0]? = some scope ∧ scope.parent = none ∧ scope.depth = 0
  nested : ∀ (id : Nat) (scope : Scope), scopes[id]? = some scope → id ≠ 0 → ∃ parent outer,
    scope.parent = some parent ∧ parent < id ∧ scopes[parent]? = some outer ∧
      scope.depth = outer.depth + 1
  ordered : ∀ (id : Nat) (scope : Scope), scopes[id]? = some scope → scope.Ordered

namespace Coherent

variable {scopes : List Scope} {live : List Nat}

theorem lt_of_mem (h : Coherent scopes live) {id : Nat} (hmem : id ∈ live) : id < scopes.length := by
  obtain ⟨before, outer, rfl⟩ := List.append_of_mem hmem
  obtain ⟨scope, hscope, _⟩ := h.stacked id outer (List.suffix_append _ _)
  exact (List.getElem?_eq_some_iff.mp hscope).1

theorem empty : Coherent SymbolTable.empty.scopes SymbolTable.empty.live := by
  have honly {id : Nat} {scope : Scope}
      (h : SymbolTable.empty.scopes[id]? = some scope) : id = 0 ∧ scope = ⟨"global", 0, none, none, 0, []⟩ := by
    cases id with
    | zero => exact ⟨rfl, (Option.some.inj h).symm⟩
    | succ id => cases h
  refine ⟨rfl, List.pairwise_singleton _ _, ?_, ?_, ⟨_, rfl, rfl, rfl⟩, ?_, ?_⟩
  · intro id outer hsuffix
    obtain ⟨before, hbefore⟩ := hsuffix
    cases before with
    | nil =>
      cases hbefore
      exact ⟨_, rfl, rfl, rfl⟩
    | cons first before => simp at hbefore
  · intro id scope hscope
    obtain ⟨rfl, rfl⟩ := honly hscope
    simp
  · intro id scope hscope hid
    exact absurd (honly hscope).1 hid
  · intro id scope hscope
    obtain ⟨rfl, rfl⟩ := honly hscope
    exact ⟨List.Pairwise.nil, fun _ => List.IsChain.nil⟩

theorem push (h : Coherent scopes live) {current : Nat} (hcurrent : live.head? = some current)
    (name : String) (line : Nat) :
    Coherent (scopes ++ [⟨name, line, none, some current, live.length, []⟩])
      (scopes.length :: live) := by
  have hold {id : Nat} {scope : Scope} (hscope : scopes[id]? = some scope) :
      (scopes ++ [⟨name, line, none, some current, live.length, []⟩])[id]? = some scope := by
    rw [List.getElem?_append_left (List.getElem?_eq_some_iff.mp hscope).1, hscope]
  have hcases {id : Nat} {scope : Scope}
      (hscope : (scopes ++ [⟨name, line, none, some current, live.length, []⟩])[id]? = some scope) :
      scopes[id]? = some scope ∨
        id = scopes.length ∧ scope = ⟨name, line, none, some current, live.length, []⟩ := by
    rcases Nat.lt_trichotomy id scopes.length with hlt | rfl | hgt
    · rw [List.getElem?_append_left hlt] at hscope
      exact .inl hscope
    · rw [List.getElem?_concat_length] at hscope
      exact .inr ⟨rfl, (Option.some.inj hscope).symm⟩
    · rw [List.getElem?_eq_none (by simp; omega)] at hscope
      cases hscope
  obtain ⟨outer, hlive⟩ : ∃ outer, live = current :: outer := by
    cases live with
    | nil => cases hcurrent
    | cons first outer => exact ⟨outer, by cases hcurrent; rfl⟩
  refine ⟨?_, ?_, ?_, ?_, ?_, ?_, ?_⟩
  · rw [hlive, List.getLast?_cons_cons, ← hlive]
    exact h.global_live
  · exact List.pairwise_cons.mpr ⟨fun id hmem => h.lt_of_mem hmem, h.decreasing⟩
  · intro id below hsuffix
    rcases List.suffix_cons_iff.mp hsuffix with heq | hsuffix
    · obtain ⟨rfl, rfl⟩ := List.cons.inj heq
      exact ⟨_, List.getElem?_concat_length, hcurrent.symm, rfl⟩
    · obtain ⟨scope, hscope, hlinks⟩ := h.stacked id below hsuffix
      exact ⟨scope, hold hscope, hlinks⟩
  · intro id scope hscope
    rcases hcases hscope with hscope | ⟨rfl, rfl⟩
    · have hne : id ≠ scopes.length := Nat.ne_of_lt (List.getElem?_eq_some_iff.mp hscope).1
      rw [h.open_iff id scope hscope, List.mem_cons]
      simp [hne]
    · simp
  · obtain ⟨scope, hscope, hglobal⟩ := h.global
    exact ⟨scope, hold hscope, hglobal⟩
  · intro id scope hscope hid
    rcases hcases hscope with hscope | ⟨rfl, rfl⟩
    · obtain ⟨parent, around, hparent, hless, haround, hdepth⟩ := h.nested id scope hscope hid
      exact ⟨parent, around, hparent, hless, hold haround, hdepth⟩
    · obtain ⟨around, haround, _, hdepth⟩ := h.stacked current outer (hlive ▸ List.suffix_refl _)
      refine ⟨current, around, rfl, ?_, hold haround, ?_⟩
      · exact (List.getElem?_eq_some_iff.mp haround).1
      · rw [hdepth, hlive]
        rfl
  · intro id scope hscope
    rcases hcases hscope with hscope | ⟨rfl, rfl⟩
    · exact h.ordered id scope hscope
    · exact ⟨List.Pairwise.nil, fun _ => List.IsChain.nil⟩

theorem modify (h : Coherent scopes live) {f : Scope → Scope} {id : Nat} {open' : List Nat}
    (hsuffix : open' <:+ live) (hnonempty : open' ≠ [])
    (hparent : ∀ scope, (f scope).parent = scope.parent)
    (hdepth : ∀ scope, (f scope).depth = scope.depth)
    (hordered : ∀ scope, scope.Ordered → (f scope).Ordered)
    (hopen : ∀ other scope, scopes[other]? = some scope →
      ((if id = other then f scope else scope).closedAt = none ↔ other ∈ open')) :
    Coherent (scopes.modify id f) open' := by
  have hnew {other : Nat} {scope : Scope} (hscope : scopes[other]? = some scope) :
      (scopes.modify id f)[other]? = some (if id = other then f scope else scope) := by
    rw [List.getElem?_modify, hscope]
    rfl
  have hold {other : Nat} {scope : Scope} (hscope : (scopes.modify id f)[other]? = some scope) :
      ∃ before, scopes[other]? = some before ∧ scope = if id = other then f before else before := by
    rw [List.getElem?_modify] at hscope
    obtain ⟨before, hbefore, rfl⟩ := Option.map_eq_some_iff.mp hscope
    exact ⟨before, hbefore, rfl⟩
  have hsame (other : Nat) (scope : Scope) :
      (if id = other then f scope else scope).parent = scope.parent ∧
        (if id = other then f scope else scope).depth = scope.depth := by
    split
    · exact ⟨hparent scope, hdepth scope⟩
    · exact ⟨rfl, rfl⟩
  refine ⟨?_, ?_, ?_, ?_, ?_, ?_, ?_⟩
  · obtain ⟨before, rfl⟩ := hsuffix
    have hlast := h.global_live
    rwa [List.getLast?_append_of_ne_nil _ hnonempty] at hlast
  · exact h.decreasing.sublist hsuffix.sublist
  · intro other below hbelow
    obtain ⟨scope, hscope, hlinks⟩ := h.stacked other below (hbelow.trans hsuffix)
    refine ⟨_, hnew hscope, ?_⟩
    rw [(hsame other scope).1, (hsame other scope).2]
    exact hlinks
  · intro other scope hscope
    obtain ⟨before, hbefore, rfl⟩ := hold hscope
    exact hopen other before hbefore
  · obtain ⟨scope, hscope, hglobal⟩ := h.global
    refine ⟨_, hnew hscope, ?_⟩
    rw [(hsame 0 scope).1, (hsame 0 scope).2]
    exact hglobal
  · intro other scope hscope hother
    obtain ⟨before, hbefore, rfl⟩ := hold hscope
    obtain ⟨parent, around, hlink, hless, haround, hlevel⟩ := h.nested other before hbefore hother
    refine ⟨parent, _, ?_, hless, hnew haround, ?_⟩
    · rw [(hsame other before).1, hlink]
    · rw [(hsame other before).2, (hsame parent around).2, hlevel]
  · intro other scope hscope
    obtain ⟨before, hbefore, rfl⟩ := hold hscope
    have hwas := h.ordered other before hbefore
    split
    · exact hordered before hwas
    · exact hwas

end Coherent

/-- No operation makes the parts of a table disagree. -/
theorem coherent_step {table : SymbolTable} (h : Coherent table.scopes table.live)
    (operation : Operation) :
    Coherent (table.step operation).scopes (table.step operation).live := by
  cases operation with
  | push name line => exact h.push table.head?_live name line
  | pop line =>
    rcases table.step_pop line with ⟨_, heq⟩ | ⟨id, outer, hlive, hnonempty, hnext, hscopes, _⟩
    · rwa [heq]
    rw [hnext, hscopes]
    rw [hlive] at h
    refine h.modify (List.suffix_cons id outer) hnonempty (fun _ => rfl) (fun _ => rfl) ?_ ?_
    · intro scope hordered
      exact ⟨hordered.sorted, hordered.differ⟩
    · intro other scope hscope
      have hopen := h.open_iff other scope hscope
      have hfirst := (List.pairwise_cons.mp h.decreasing).1
      by_cases hother : id = other
      · subst hother
        rw [if_pos rfl]
        simp only [reduceCtorEq, false_iff]
        intro hmem
        exact Nat.lt_irrefl _ (hfirst id hmem)
      · rw [if_neg hother, hopen, List.mem_cons]
        simp [Ne.symm hother]
  | define binding =>
    have hnonempty : table.live ≠ [] := by
      intro hnone
      have hcurrent := table.head?_live
      rw [hnone] at hcurrent
      cases hcurrent
    change Coherent (table.scopes.modify table.current fun scope => scope.insert binding) table.live
    refine h.modify (List.suffix_refl _) hnonempty (fun _ => Scope.parent_insert _ _)
      (fun _ => Scope.depth_insert _ _) (fun _ hordered => hordered.insert binding) ?_
    · intro other scope hscope
      rw [← h.open_iff other scope hscope]
      split
      · rw [Scope.closedAt_insert]
      · rfl
  | seek line => exact h

theorem coherent_run {table : SymbolTable} (h : Coherent table.scopes table.live)
    (operations : List Operation) :
    Coherent (table.run operations).scopes (table.run operations).live := by
  induction operations generalizing table with
  | nil => exact h
  | cons operation operations ih => exact ih (coherent_step h operation)

/-- The table that an analysis starts from comes from the empty one by binding the builtins. -/
theorem initial_eq_run (builtins : Bool) :
    initial builtins =
      empty.run (if builtins then Builtins.bindings.map .define else []) := by
  cases builtins with
  | false => rfl
  | true =>
    rw [if_pos rfl, run, List.foldl_map]
    rfl

theorem coherent_initial (builtins : Bool) :
    Coherent (initial builtins).scopes (initial builtins).live := by
  rw [initial_eq_run]
  exact coherent_run Coherent.empty _

end SymbolTable

end QuantumScript
