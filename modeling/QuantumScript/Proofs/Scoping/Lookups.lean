import QuantumScript.Proofs.Scoping.Runs
/-!
# Lookups

A lookup goes through scopes from the inside out and stops at the first one that has an answer. For
names that are visible now these are the open scopes, for a past line the deepest scope around the
line and its parents. Either way no scope on the way is missing, and the last one is the global scope.
-/

namespace QuantumScript

namespace SymbolTable

variable {scopes : List Scope} {live : List Nat}

/-- From a scope outwards, each scope being the parent of the one before it, up to the global one. -/
inductive Outwards (scopes : List Scope) : List Nat → Prop
  | global {scope : Scope} (hscope : scopes[0]? = some scope) (hparent : scope.parent = none) :
    Outwards scopes [0]
  | inside {id parent : Nat} {scope : Scope} {outer : List Nat} (hscope : scopes[id]? = some scope)
    (hparent : scope.parent = some parent) (hless : parent < id)
    (houter : Outwards scopes (parent :: outer)) : Outwards scopes (id :: parent :: outer)

/-- A scope that contains the line, and of all that do the deepest, and the last of these. -/
def Deepest (scopes : List Scope) (line id : Nat) : Prop :=
  ∃ scope, scopes[id]? = some scope ∧ scope.containsLine line = true ∧
    ∀ (other : Nat) (around : Scope), scopes[other]? = some around →
      around.containsLine line = true →
      around.depth < scope.depth ∨ around.depth = scope.depth ∧ other ≤ id

section Stacks

/-- Every scope is there, and from each there is a way to the global one. -/
theorem Coherent.outwards (h : Coherent scopes live) {id : Nat} (hid : id < scopes.length) :
    ∃ outer, Outwards scopes (id :: outer) := by
  induction id using Nat.strongRecOn with
  | ind id ih =>
    by_cases hzero : id = 0
    · subst hzero
      obtain ⟨scope, hscope, hparent, _⟩ := h.global
      exact ⟨[], .global hscope hparent⟩
    · obtain ⟨parent, around, hparent, hless, haround, _⟩ :=
        h.nested id scopes[id] (List.getElem?_eq_getElem hid) hzero
      obtain ⟨outer, houter⟩ := ih parent hless (List.getElem?_eq_some_iff.mp haround).1
      exact ⟨parent :: outer, .inside (List.getElem?_eq_getElem hid) hparent hless houter⟩

/-- The open scopes lead outwards. -/
theorem Coherent.outwards_live (h : Coherent scopes live) : Outwards scopes live := by
  have hsuffix (ids : List Nat) (hids : ids <:+ live) (hne : ids ≠ []) : Outwards scopes ids := by
    induction ids with
    | nil => exact absurd rfl hne
    | cons id outer ih =>
      obtain ⟨scope, hscope, hparent, _⟩ := h.stacked id outer hids
      cases outer with
      | nil =>
        obtain ⟨before, hbefore⟩ := hids
        have hlast := h.global_live
        rw [← hbefore, List.getLast?_concat] at hlast
        obtain rfl : id = 0 := Option.some.inj hlast
        exact .global hscope hparent
      | cons parent outer =>
        have hless := h.decreasing.sublist hids.sublist
        refine .inside hscope hparent ((List.pairwise_cons.mp hless).1 parent (by simp)) ?_
        exact ih ((List.suffix_cons _ _).trans hids) (List.cons_ne_nil _ _)
  refine hsuffix live (List.suffix_refl _) ?_
  intro hnone
  have hlast := h.global_live
  rw [hnone] at hlast
  cases hlast

theorem Outwards.depth (h : Coherent scopes live) {id : Nat} {outer : List Nat}
    (hout : Outwards scopes (id :: outer)) :
    ∃ scope, scopes[id]? = some scope ∧ scope.depth = outer.length := by
  generalize hids : id :: outer = ids at hout
  induction hout generalizing id outer with
  | global hscope _ =>
    obtain ⟨rfl, rfl⟩ := List.cons.inj hids
    obtain ⟨scope, hglobal, _, hdepth⟩ := h.global
    exact ⟨scope, hglobal, hdepth⟩
  | @inside other parent scope around hscope hparent hless _ ih =>
    obtain ⟨rfl, rfl⟩ := List.cons.inj hids
    obtain ⟨link, below, hlink, _, hbelow, hdepth⟩ := h.nested id scope hscope (by omega)
    rw [hparent] at hlink
    cases hlink
    obtain ⟨outside, houtside, hlevel⟩ := ih rfl
    rw [hbelow] at houtside
    cases houtside
    exact ⟨scope, hscope, by rw [hdepth, hlevel, List.length_cons]⟩

private theorem Outwards.suffix {inner ids : List Nat} (h : Outwards scopes (inner ++ ids))
    (hne : ids ≠ []) : Outwards scopes ids := by
  induction inner with
  | nil => exact h
  | cons id inner ih =>
    generalize hall : id :: inner ++ ids = all at h
    cases h with
    | global hscope hparent =>
      obtain ⟨rfl, hnil⟩ := List.cons.inj hall
      exact absurd (List.append_eq_nil_iff.mp hnil).2 hne
    | inside hscope hparent hless houter =>
      obtain ⟨rfl, hrest⟩ := List.cons.inj hall
      have hpath : inner ++ ids = _ := hrest
      exact ih (hpath ▸ houter)

theorem Outwards.lt_of_mem {ids : List Nat} (h : Outwards scopes ids) {id : Nat} (hmem : id ∈ ids) :
    id < scopes.length := by
  induction h with
  | global hscope _ =>
    rw [List.mem_singleton.mp hmem]
    exact (List.getElem?_eq_some_iff.mp hscope).1
  | inside hscope _ _ _ ih =>
    rcases List.mem_cons.mp hmem with rfl | hmem
    · exact (List.getElem?_eq_some_iff.mp hscope).1
    · exact ih hmem

end Stacks

section Finding

variable {find : Scope → Option Binding}

/-- What is found is in the first of the scopes that has an answer. -/
theorem findIn_eq_some {ids : List Nat} {record : Record} :
    findIn scopes find ids = some record ↔
      ∃ inner outer, ids = inner ++ record.scope :: outer ∧ record.level = outer.length ∧
        (∀ id ∈ inner, scopes[id]?.bind find = none) ∧
        scopes[record.scope]?.bind find = some record.binding := by
  induction ids with
  | nil => simp [findIn]
  | cons id ids ih =>
    rw [findIn]
    cases hfirst : scopes[id]?.bind find with
    | some binding =>
      constructor
      · intro hsome
        cases hsome
        exact ⟨[], ids, rfl, rfl, by simp, hfirst⟩
      · rintro ⟨inner, outer, hids, hlevel, hinner, hfound⟩
        cases inner with
        | nil =>
          obtain ⟨rfl, rfl⟩ := List.cons.inj hids
          rw [hfirst] at hfound
          cases hfound
          rw [← hlevel]
        | cons other inner =>
          obtain ⟨rfl, _⟩ := List.cons.inj hids
          have hnone := hinner id (by simp)
          rw [hfirst] at hnone
          cases hnone
    | none =>
      rw [ih]
      constructor
      · rintro ⟨inner, outer, rfl, hlevel, hinner, hfound⟩
        exact ⟨id :: inner, outer, rfl, hlevel, List.forall_mem_cons.mpr ⟨hfirst, hinner⟩, hfound⟩
      · rintro ⟨inner, outer, hids, hlevel, hinner, hfound⟩
        cases inner with
        | nil =>
          obtain ⟨rfl, rfl⟩ := List.cons.inj hids
          rw [hfirst] at hfound
          cases hfound
        | cons other inner =>
          obtain ⟨rfl, rfl⟩ := List.cons.inj hids
          exact ⟨inner, outer, rfl, hlevel, fun id hmem => hinner id (by simp [hmem]), hfound⟩

/-- Only what the scopes answer matters. -/
theorem findIn_congr {other : Scope → Option Binding} (h : ∀ scope ∈ scopes, find scope = other scope)
    (ids : List Nat) : findIn scopes find ids = findIn scopes other ids := by
  induction ids with
  | nil => rfl
  | cons id ids ih =>
    have hsame : scopes[id]?.bind find = scopes[id]?.bind other := by
      cases hscope : scopes[id]? with
      | none => rfl
      | some scope => exact h scope (List.mem_of_getElem? hscope)
    rw [findIn, findIn, hsame, ih]

/-- Looking outwards from a scope goes through all the scopes on the way. -/
theorem findOutwards_eq (h : Coherent scopes live) (name : String) (line : Nat) {id : Nat}
    {outer : List Nat} (hout : Outwards scopes (id :: outer)) :
    findOutwards scopes name line id =
      findIn scopes (fun scope => scope.latestAt name line) (id :: outer) := by
  have hdepth := hout.depth h
  generalize hids : id :: outer = ids at hout
  induction hout generalizing id outer with
  | global hscope hparent =>
    obtain ⟨rfl, rfl⟩ := List.cons.inj hids
    rw [findOutwards, findIn, hscope]
    obtain ⟨scope, hsame, hlevel⟩ := hdepth
    rw [hscope] at hsame
    cases hsame
    simp only [Option.bind_some, hparent, findIn]
    split <;> simp [hlevel]
  | @inside other parent scope around hscope hparent hless houter ih =>
    obtain ⟨rfl, rfl⟩ := List.cons.inj hids
    rw [findOutwards, findIn, hscope]
    obtain ⟨scope', hsame, hlevel⟩ := hdepth
    rw [hscope] at hsame
    cases hsame
    simp only [Option.bind_some, hparent, if_pos hless, ih (houter.depth h) rfl]
    split <;> simp [hlevel]

end Finding

section Deepest

/-- Of two numbered scopes the first is not deeper, nor of the same depth and later. -/
private def Below (a b : Nat × Scope) : Prop :=
  a.2.depth < b.2.depth ∨ a.2.depth = b.2.depth ∧ a.1 ≤ b.1

private theorem foldl_deeper {entries : List (Nat × Scope)} {best : Nat × Scope}
    (hless : ∀ entry ∈ entries, best.1 < entry.1)
    (hsorted : entries.Pairwise fun a b => a.1 < b.1) :
    ∃ result, entries.foldl deeper (some best) = some result ∧
      (result = best ∨ result ∈ entries) ∧ Below best result ∧
      ∀ entry ∈ entries, Below entry result := by
  induction entries generalizing best with
  | nil => exact ⟨best, rfl, .inl rfl, .inr ⟨rfl, Nat.le_refl _⟩, nofun⟩
  | cons entry entries ih =>
    obtain ⟨hlater, hsorted⟩ := List.pairwise_cons.mp hsorted
    have hfirst := hless entry (by simp)
    rw [List.foldl_cons, deeper]
    by_cases hdeeper : best.2.depth ≤ entry.2.depth
    · rw [if_pos hdeeper]
      obtain ⟨result, hresult, hmem, hentry, hothers⟩ := ih hlater hsorted
      refine ⟨result, hresult, .inr ?_, ?_, ?_⟩
      · rcases hmem with rfl | hmem
        · exact List.mem_cons_self
        · exact List.mem_cons_of_mem _ hmem
      · unfold Below at hentry ⊢
        omega
      · exact List.forall_mem_cons.mpr ⟨hentry, hothers⟩
    · rw [if_neg hdeeper]
      obtain ⟨result, hresult, hmem, hbest, hothers⟩ :=
        ih (fun other hmem => hless other (by simp [hmem])) hsorted
      refine ⟨result, hresult, ?_, hbest, ?_⟩
      · rcases hmem with rfl | hmem
        · exact .inl rfl
        · exact .inr (List.mem_cons_of_mem _ hmem)
      · refine List.forall_mem_cons.mpr ⟨?_, hothers⟩
        unfold Below at hbest ⊢
        omega

private theorem within_scopes (scopes : List Scope) (line : Nat) :
    let entries := (scopes.zipIdx.map fun entry => (entry.2, entry.1)).filter
      fun entry => entry.2.containsLine line
    (∀ id scope, (id, scope) ∈ entries ↔ scopes[id]? = some scope ∧ scope.containsLine line = true) ∧
      entries.Pairwise fun a b => a.1 < b.1 := by
  refine ⟨?_, ?_⟩
  · intro id scope
    simp [List.mem_zipIdx_iff_getElem?]
  · refine List.Pairwise.filter _ (List.pairwise_map.mpr ?_)
    have hnumbers : (scopes.zipIdx.map Prod.snd).Pairwise (· < ·) := by
      rw [List.zipIdx_map_snd]
      exact List.pairwise_lt_range'
    exact List.pairwise_map.mp hnumbers

theorem Deepest.lt {line id : Nat} (h : Deepest scopes line id) : id < scopes.length := by
  obtain ⟨scope, hscope, _⟩ := h
  exact (List.getElem?_eq_some_iff.mp hscope).1

private theorem Deepest.unique {line id other : Nat} (h : Deepest scopes line id)
    (hother : Deepest scopes line other) : id = other := by
  obtain ⟨scope, hscope, hcontains, hdeepest⟩ := h
  obtain ⟨scope', hscope', hcontains', hdeepest'⟩ := hother
  have hle := hdeepest other scope' hscope' hcontains'
  have hge := hdeepest' id scope hscope hcontains
  omega

/-- The scope at a line is the deepest one that contains it. -/
theorem scopeAt?_eq_some {table : SymbolTable} {line id : Nat} :
    table.scopeAt? line = some id ↔ Deepest table.scopes line id := by
  obtain ⟨hmem, hsorted⟩ := within_scopes table.scopes line
  have hexists : (∃ entry, entry ∈ (table.scopes.zipIdx.map fun entry => (entry.2, entry.1)).filter
      fun entry => entry.2.containsLine line) →
      ∃ result, table.scopeAt? line = some result ∧ Deepest table.scopes line result := by
    rintro ⟨entry, hentry⟩
    unfold scopeAt?
    dsimp only
    generalize (table.scopes.zipIdx.map fun entry => (entry.2, entry.1)).filter
      (fun entry => entry.2.containsLine line) = entries at hmem hsorted hentry
    cases entries with
    | nil => cases hentry
    | cons first entries =>
      obtain ⟨hless, hsorted⟩ := List.pairwise_cons.mp hsorted
      obtain ⟨⟨number, scope⟩, hresult, hwhich, hfirst, hothers⟩ := foldl_deeper hless hsorted
      refine ⟨number, ?_, ?_⟩
      · rw [List.foldl_cons, deeper, hresult]
        rfl
      · have hin : (number, scope) ∈ first :: entries := by
          rcases hwhich with heq | hin
          · rw [heq]
            exact List.mem_cons_self
          · exact List.mem_cons_of_mem _ hin
        obtain ⟨hscope, hcontains⟩ := (hmem number scope).mp hin
        refine ⟨scope, hscope, hcontains, ?_⟩
        intro other around haround hcontained
        have hall : ∀ entry ∈ first :: entries, Below entry (number, scope) :=
          List.forall_mem_cons.mpr ⟨hfirst, hothers⟩
        exact hall _ ((hmem other around).mpr ⟨haround, hcontained⟩)
  constructor
  · intro hsome
    have hnonempty : ∃ entry,
        entry ∈ (table.scopes.zipIdx.map fun entry => (entry.2, entry.1)).filter
          fun entry => entry.2.containsLine line := by
      unfold scopeAt? at hsome
      dsimp only at hsome
      generalize (table.scopes.zipIdx.map fun entry => (entry.2, entry.1)).filter
        (fun entry => entry.2.containsLine line) = entries at hsome ⊢
      cases entries with
      | nil => cases hsome
      | cons first entries => exact ⟨first, List.mem_cons_self⟩
    obtain ⟨result, hresult, hdeepest⟩ := hexists hnonempty
    rw [hsome] at hresult
    cases hresult
    exact hdeepest
  · intro hdeepest
    have hparts := hdeepest
    obtain ⟨scope, hscope, hcontains, _⟩ := hparts
    obtain ⟨result, hresult, hother⟩ := hexists ⟨(id, scope), (hmem id scope).mpr ⟨hscope, hcontains⟩⟩
    rw [hresult, hdeepest.unique hother]

end Deepest

/-- A binding at a line is looked for in the deepest scope around the line and outwards from there. -/
theorem lookupAt?_eq_some {table : SymbolTable} (h : Coherent table.scopes table.live) (name : String)
    (line : Nat) (record : Record) :
    table.lookupAt? name line = some record ↔
      ∃ id outer, Deepest table.scopes line id ∧ Outwards table.scopes (id :: outer) ∧
        findIn table.scopes (fun scope => scope.latestAt name line) (id :: outer) = some record := by
  rw [lookupAt?, Option.bind_eq_some_iff]
  constructor
  · rintro ⟨id, hid, hfound⟩
    have hdeepest := scopeAt?_eq_some.mp hid
    obtain ⟨outer, hout⟩ := h.outwards hdeepest.lt
    exact ⟨id, outer, hdeepest, hout, findOutwards_eq h name line hout ▸ hfound⟩
  · rintro ⟨id, outer, hdeepest, hout, hfound⟩
    exact ⟨id, scopeAt?_eq_some.mpr hdeepest, findOutwards_eq h name line hout ▸ hfound⟩

/-- In every table that any operations make of a starting one, the scopes, the open ones and the
versions fit together. No scope that a lookup comes to is missing, the way outwards from any scope ends
at the global one, and every record has the depth of the scope that it was found in. -/
theorem run_coherent (builtins : Bool) (operations : List Operation) :
    let table := (initial builtins).run operations
    Coherent table.scopes table.live ∧
    (∀ (id : Nat) (scope : Scope) (name : String), table.scopes[id]? = some scope →
      Scope.Sorted (scope.versions name) ∧ (∀ binding ∈ scope.versions name, binding.name = name) ∧
        (scope.versions name).IsChain Scope.Differ) ∧
    (∀ id ∈ table.live, id < table.scopes.length) ∧
    (∀ line id, table.scopeAt? line = some id → id < table.scopes.length) ∧
    (∀ id < table.scopes.length, ∃ outer, Outwards table.scopes (id :: outer) ∧
      ∀ name line, findOutwards table.scopes name line id =
        findIn table.scopes (fun scope => scope.latestAt name line) (id :: outer)) ∧
    ∀ name line record,
      table.lookup? name = some record ∨ table.lookupDeclared? name = some record ∨
        table.lookupAt? name line = some record →
      ∃ scope, table.scopes[record.scope]? = some scope ∧ scope.depth = record.level ∧
        record.binding ∈ scope.versions name := by
  intro table
  have h : Coherent table.scopes table.live := coherent_run (coherent_initial builtins) operations
  have hat (line id : Nat) (hid : table.scopeAt? line = some id) : id < table.scopes.length :=
    (scopeAt?_eq_some.mp hid).lt
  refine ⟨h, ?_, fun id hmem => h.lt_of_mem hmem, hat, ?_, ?_⟩
  · intro id scope name hscope
    have hordered := h.ordered id scope hscope
    exact ⟨hordered.versions_sorted name, fun _ hmem => (Scope.mem_versions.mp hmem).2,
      hordered.differ name⟩
  · intro id hid
    obtain ⟨outer, houter⟩ := h.outwards hid
    exact ⟨outer, houter, fun name line => findOutwards_eq h name line houter⟩
  · intro name line record hrecord
    have hfound {find : Scope → Option Binding} {ids : List Nat} (hout : Outwards table.scopes ids)
        (hfind : ∀ scope binding, find scope = some binding → binding ∈ scope.versions name)
        (hsome : findIn table.scopes find ids = some record) :
        ∃ scope, table.scopes[record.scope]? = some scope ∧ scope.depth = record.level ∧
          record.binding ∈ scope.versions name := by
      obtain ⟨inner, outer, rfl, hlevel, _, hbinding⟩ := findIn_eq_some.mp hsome
      obtain ⟨scope, hscope, hdepth⟩ := (hout.suffix (List.cons_ne_nil _ _)).depth h
      rw [hscope] at hbinding
      exact ⟨scope, hscope, by rw [hdepth, hlevel], hfind scope _ hbinding⟩
    have hlatest (limit : Nat) (scope : Scope) (binding : Binding)
        (hsome : scope.latestAt name limit = some binding) : binding ∈ scope.versions name :=
      (Scope.mem_of_latestAt hsome).1
    rcases hrecord with hnow | hdeclared | hpast
    · exact hfound h.outwards_live (hlatest table.position) hnow
    · exact hfound h.outwards_live (fun _ _ hsome => List.mem_of_mem_head? hsome) hdeclared
    · obtain ⟨id, outer, _, houter, hsome⟩ := (lookupAt?_eq_some h name line record).mp hpast
      exact hfound houter (hlatest line) hsome

end SymbolTable

end QuantumScript
