import QuantumScript.Proofs.Scoping.Lookups
/-!
# Past lines

Where the operations on a table follow the lines of a script, the table tells for every line what its
lookups told when the line was reached. A line is left by the first operation on a later line, or by
the first closing of a scope on it: a scope that is closed on a line is still seen from there.
-/

namespace QuantumScript

namespace SymbolTable

namespace Operation

def line : Operation → Nat
  | .push _ line | .pop line | .seek line => line
  | .define binding => binding.line

def isPop : Operation → Bool
  | .pop _ => true
  | .push _ _ | .define _ | .seek _ => false

/-- The operation does not leave the line. -/
def isWithin (line : Nat) (operation : Operation) : Bool :=
  operation.line < line || operation.line = line && !operation.isPop

theorem isWithin_iff {line : Nat} {operation : Operation} : operation.isWithin line = true ↔
    operation.line < line ∨ operation.line = line ∧ operation.isPop = false := by
  simp [isWithin]

theorem not_isWithin_iff {line : Nat} {operation : Operation} : operation.isWithin line = false ↔
    line ≤ operation.line ∧ (operation.isPop = false → line < operation.line) := by
  rw [← Bool.not_eq_true, isWithin_iff]
  cases operation.isPop <;> simp

end Operation

/-- The operations follow the lines of a script. What comes after a scope is closed is further down. -/
structure Chronological (operations : List Operation) : Prop where
  steady : ∀ operation ∈ operations, ∀ line, operation ≠ .seek line
  growing : operations.Pairwise fun a b => a.line ≤ b.line
  apart : operations.Pairwise fun a b => a.isPop = true → b.isPop = false → a.line < b.line

/-- Nothing that the scopes tell of a line has changed. -/
structure AgreeAt (line : Nat) (scopes later : List Scope) : Prop where
  old : ∀ (id : Nat) (scope : Scope), scopes[id]? = some scope → ∃ next, later[id]? = some next ∧
    next.parent = scope.parent ∧ next.depth = scope.depth ∧
    next.containsLine line = scope.containsLine line ∧
    ∀ name, next.latestAt name line = scope.latestAt name line
  new : ∀ (id : Nat) (next : Scope), later[id]? = some next → scopes.length ≤ id →
    next.containsLine line = false

namespace AgreeAt

variable {line : Nat} {scopes later : List Scope}

theorem refl (line : Nat) (scopes : List Scope) : AgreeAt line scopes scopes := by
  refine ⟨fun id scope hscope => ⟨scope, hscope, rfl, rfl, rfl, fun _ => rfl⟩, ?_⟩
  intro id next hnext hle
  have := (List.getElem?_eq_some_iff.mp hnext).1
  omega

theorem modify {f : Scope → Scope} {id : Nat} (h : ∀ scope, scopes[id]? = some scope →
      (f scope).parent = scope.parent ∧ (f scope).depth = scope.depth ∧
        (f scope).containsLine line = scope.containsLine line ∧
        ∀ name, (f scope).latestAt name line = scope.latestAt name line) :
    AgreeAt line scopes (scopes.modify id f) := by
  refine ⟨?_, ?_⟩
  · intro other scope hscope
    refine ⟨if id = other then f scope else scope, by rw [List.getElem?_modify, hscope]; rfl, ?_⟩
    split
    · rename_i hother
      exact h scope (hother ▸ hscope)
    · exact ⟨rfl, rfl, rfl, fun _ => rfl⟩
  · intro other next hnext hle
    have hlt := (List.getElem?_eq_some_iff.mp hnext).1
    rw [List.length_modify] at hlt
    omega

private theorem before (h : AgreeAt line scopes later) {id : Nat} {next : Scope}
    (hnext : later[id]? = some next) (hcontains : next.containsLine line = true) :
    ∃ scope, scopes[id]? = some scope ∧ scope.depth = next.depth ∧
      scope.containsLine line = true := by
  by_cases hid : id < scopes.length
  · obtain ⟨same, hsame, _, hdepth, hline, _⟩ := h.old id _ (List.getElem?_eq_getElem hid)
    rw [hnext] at hsame
    cases hsame
    exact ⟨_, List.getElem?_eq_getElem hid, hdepth.symm, hline ▸ hcontains⟩
  · rw [h.new id next hnext (by omega)] at hcontains
    cases hcontains

theorem deepest (h : AgreeAt line scopes later) (id : Nat) :
    Deepest later line id ↔ Deepest scopes line id := by
  constructor
  · rintro ⟨next, hnext, hcontains, hdeepest⟩
    obtain ⟨scope, hscope, hdepth, hcontained⟩ := h.before hnext hcontains
    refine ⟨scope, hscope, hcontained, ?_⟩
    intro other around haround hline
    obtain ⟨same, hsame, _, hlevel, hsameline, _⟩ := h.old other around haround
    rw [hdepth, ← hlevel]
    exact hdeepest other same hsame (hsameline.trans hline)
  · rintro ⟨scope, hscope, hcontains, hdeepest⟩
    obtain ⟨next, hnext, _, hdepth, hline, _⟩ := h.old id scope hscope
    refine ⟨next, hnext, hline.trans hcontains, ?_⟩
    intro other around haround hcontained
    obtain ⟨same, hsame, hlevel, hsameline⟩ := h.before haround hcontained
    rw [hdepth, ← hlevel]
    exact hdeepest other same hsame hsameline

theorem outwards (h : AgreeAt line scopes later) {ids : List Nat} (hout : Outwards scopes ids) :
    Outwards later ids := by
  induction hout with
  | global hscope hparent =>
    obtain ⟨next, hnext, hsame, _⟩ := h.old 0 _ hscope
    exact .global hnext (hsame.trans hparent)
  | inside hscope hparent hless _ ih =>
    obtain ⟨next, hnext, hsame, _⟩ := h.old _ _ hscope
    exact .inside hnext (hsame.trans hparent) hless ih

theorem findIn (h : AgreeAt line scopes later) (name : String) {ids : List Nat}
    (hids : ∀ id ∈ ids, id < scopes.length) :
    SymbolTable.findIn later (fun scope => scope.latestAt name line) ids =
      SymbolTable.findIn scopes (fun scope => scope.latestAt name line) ids := by
  induction ids with
  | nil => rfl
  | cons id ids ih =>
    have hscope := List.getElem?_eq_getElem (hids id (by simp))
    obtain ⟨next, hnext, _, _, _, hlatest⟩ := h.old id _ hscope
    rw [SymbolTable.findIn, SymbolTable.findIn, hnext, hscope, Option.bind_some, Option.bind_some,
      hlatest, ih fun other hmem => hids other (by simp [hmem])]

/-- So nothing has changed in what the table tells of the line. -/
theorem lookupAt? {table next : SymbolTable} (h : AgreeAt line table.scopes next.scopes)
    (htable : Coherent table.scopes table.live) (hnext : Coherent next.scopes next.live)
    (name : String) : next.lookupAt? name line = table.lookupAt? name line := by
  apply Option.ext
  intro record
  rw [lookupAt?_eq_some hnext, lookupAt?_eq_some htable]
  constructor
  · rintro ⟨id, outer, hdeepest, hout, hfound⟩
    rw [h.deepest] at hdeepest
    obtain ⟨around, haround⟩ := htable.outwards hdeepest.lt
    refine ⟨id, around, hdeepest, haround, ?_⟩
    rw [← h.findIn name fun _ hmem => haround.lt_of_mem hmem,
      ← findOutwards_eq hnext name line (h.outwards haround), findOutwards_eq hnext name line hout]
    exact hfound
  · rintro ⟨id, outer, hdeepest, hout, hfound⟩
    refine ⟨id, outer, (h.deepest id).mpr hdeepest, h.outwards hout, ?_⟩
    rw [h.findIn name fun _ hmem => hout.lt_of_mem hmem]
    exact hfound

end AgreeAt

/-- What is done on a later line, or to close a scope, leaves what is told of the line as it is. -/
theorem agreeAt_step {table : SymbolTable} (h : Coherent table.scopes table.live) {line : Nat}
    {operation : Operation} (hline : line ≤ operation.line)
    (hlater : operation.isPop = false → line < operation.line) :
    AgreeAt line table.scopes (table.step operation).scopes := by
  cases operation with
  | push name opened =>
    have hscopes : (table.step (.push name opened)).scopes =
        table.scopes ++ [⟨name, opened, none, some table.current, table.openCount, []⟩] := rfl
    rw [hscopes]
    refine ⟨?_, ?_⟩
    · intro id scope hscope
      refine ⟨scope, ?_, rfl, rfl, rfl, fun _ => rfl⟩
      rw [List.getElem?_append_left (List.getElem?_eq_some_iff.mp hscope).1, hscope]
    · intro id next hnext hle
      rw [List.getElem?_append_right hle] at hnext
      obtain rfl := List.mem_singleton.mp (List.mem_of_getElem? hnext)
      have : line < opened := hlater rfl
      simp [Scope.containsLine]
      omega
  | pop closed =>
    rcases table.step_pop closed with ⟨_, heq⟩ | ⟨id, outer, hlive, _, _, hscopes, _⟩
    · rw [heq]
      exact AgreeAt.refl line table.scopes
    rw [hscopes]
    refine AgreeAt.modify fun scope hscope => ⟨rfl, rfl, ?_, fun _ => rfl⟩
    have hopen := (h.open_iff id scope hscope).mpr (by rw [hlive]; exact List.mem_cons_self)
    have hclosed : line ≤ closed := hline
    simp [Scope.containsLine, hopen, hclosed]
  | define binding =>
    refine AgreeAt.modify fun scope hscope =>
      ⟨Scope.parent_insert _ _, Scope.depth_insert _ _, ?_, fun name => ?_⟩
    · rw [Scope.containsLine, Scope.containsLine, Scope.openedAt_insert, Scope.closedAt_insert]
    · have hlate : ¬binding.line ≤ line := Nat.not_le.mpr (hlater rfl)
      rw [Scope.latestAt_insert (h.ordered _ scope hscope), if_neg fun hboth => hlate hboth.2]
  | seek position => exact AgreeAt.refl line table.scopes

/-- The table has not left the line: nothing has been done further down, and what is closed was closed
above. -/
structure Within (line : Nat) (table : SymbolTable) : Prop where
  position : table.position ≤ line
  opened : ∀ scope ∈ table.scopes, scope.openedAt ≤ line
  closed : ∀ scope ∈ table.scopes, ∀ closed, scope.closedAt = some closed → closed < line
  bound : ∀ scope ∈ table.scopes, ∀ binding ∈ scope.bindings, binding.line ≤ table.position

namespace Within

variable {line : Nat} {table : SymbolTable}

theorem empty (line : Nat) : Within line SymbolTable.empty := by
  have honly {p : Scope → Prop} (h : p ⟨"global", 0, none, none, 0, []⟩) :
      ∀ scope ∈ SymbolTable.empty.scopes, p scope := List.forall_mem_singleton.mpr h
  exact ⟨Nat.zero_le _, honly (Nat.zero_le _), honly nofun, honly nofun⟩

private theorem forall_mem_modify {scopes : List Scope} {f : Scope → Scope} {p : Scope → Prop}
    (h : ∀ scope ∈ scopes, p scope) (hf : ∀ scope ∈ scopes, p (f scope)) (id : Nat) :
    ∀ scope ∈ scopes.modify id f, p scope := by
  intro scope hmem
  obtain ⟨other, hother⟩ := List.mem_iff_getElem?.mp hmem
  rw [List.getElem?_modify] at hother
  obtain ⟨before, hbefore, rfl⟩ := Option.map_eq_some_iff.mp hother
  have hold := List.mem_of_getElem? hbefore
  split
  · exact hf before hold
  · exact h before hold

theorem step (h : Within line table) (hcoherent : Coherent table.scopes table.live)
    {operation : Operation} (hsteady : ∀ position, operation ≠ .seek position)
    (hline : operation.isWithin line = true) : Within line (table.step operation) := by
  have hposition := h.position
  have hreach {scope : Scope} (hscope : scope ∈ table.scopes) (reached : Nat) :
      ∀ b ∈ scope.bindings, b.line ≤ max table.position reached :=
    fun b hmem => Nat.le_trans (h.bound scope hscope b hmem) (Nat.le_max_left _ _)
  cases operation with
  | push name opened =>
    have hopened : opened ≤ line := by
      have : opened < line ∨ opened = line ∧ _ := Operation.isWithin_iff.mp hline
      omega
    have hone {p : Scope → Prop} (hold : ∀ scope ∈ table.scopes, p scope)
        (hnew : p ⟨name, opened, none, some table.current, table.openCount, []⟩) :
        ∀ scope ∈ (table.step (.push name opened)).scopes, p scope :=
      List.forall_mem_append.mpr ⟨hold, List.forall_mem_singleton.mpr hnew⟩
    exact ⟨Nat.max_le.mpr ⟨hposition, hopened⟩, hone h.opened hopened, hone h.closed nofun,
      hone (fun scope hscope => hreach hscope opened) nofun⟩
  | pop closed =>
    have hclosed : closed < line := by
      rcases Operation.isWithin_iff.mp hline with hless | ⟨_, hpop⟩
      · exact hless
      · cases hpop
    rcases table.step_pop closed with ⟨_, heq⟩ | ⟨id, outer, _, _, _, hscopes, hnext⟩
    · rwa [heq]
    refine ⟨?_, ?_, ?_, ?_⟩
    · rw [hnext]
      omega
    · rw [hscopes]
      refine forall_mem_modify h.opened ?_ id
      exact h.opened
    · rw [hscopes]
      refine forall_mem_modify h.closed ?_ id
      intro scope _ last hlast
      cases hlast
      exact hclosed
    · rw [hscopes, hnext]
      refine forall_mem_modify (fun scope hscope => hreach hscope closed) ?_ id
      exact fun scope hscope => hreach hscope closed
  | define binding =>
    have hbinding : binding.line ≤ line := by
      have : binding.line < line ∨ binding.line = line ∧ _ := Operation.isWithin_iff.mp hline
      omega
    refine ⟨Nat.max_le.mpr ⟨hposition, hbinding⟩, forall_mem_modify h.opened ?_ _,
      forall_mem_modify h.closed ?_ _,
      forall_mem_modify (fun scope hscope => hreach hscope binding.line) ?_ _⟩
    · intro scope hscope
      rw [Scope.openedAt_insert]
      exact h.opened scope hscope
    · intro scope hscope
      rw [Scope.closedAt_insert]
      exact h.closed scope hscope
    · intro scope hscope b hmem
      obtain ⟨id, hid⟩ := List.mem_iff_getElem?.mp hscope
      rcases Scope.mem_insert (hcoherent.ordered id scope hid) hmem with rfl | hold
      · exact Nat.le_max_right _ _
      · exact hreach hscope binding.line b hold
  | seek position => exact absurd rfl (hsteady position)

theorem run (h : Within line table) (hcoherent : Coherent table.scopes table.live)
    {operations : List Operation}
    (hsteady : ∀ operation ∈ operations, ∀ position, operation ≠ .seek position)
    (hline : ∀ operation ∈ operations, operation.isWithin line = true) :
    Within line (table.run operations) := by
  induction operations generalizing table with
  | nil => exact h
  | cons operation operations ih =>
    have hfirst := h.step hcoherent (hsteady operation (by simp)) (hline operation (by simp))
    exact ih hfirst (coherent_step hcoherent operation)
      (fun other hmem => hsteady other (by simp [hmem]))
      (fun other hmem => hline other (by simp [hmem]))

private theorem deepest_current (h : Within line table)
    (hcoherent : Coherent table.scopes table.live) : Deepest table.scopes line table.current := by
  obtain ⟨outer, hlive⟩ := List.head?_eq_some_iff.mp table.head?_live
  obtain ⟨scope, hscope, _, hdepth⟩ :=
    hcoherent.stacked table.current outer (hlive ▸ List.suffix_refl _)
  have hopen := (hcoherent.open_iff _ scope hscope).mpr (hlive ▸ List.mem_cons_self)
  have hopened := h.opened scope (List.mem_of_getElem? hscope)
  refine ⟨scope, hscope, by simp [Scope.containsLine, hopen, hopened], ?_⟩
  intro other around haround hcontains
  have hlast : around.closedAt = none := by
    cases hclosed : around.closedAt with
    | none => rfl
    | some closed =>
      have := h.closed around (List.mem_of_getElem? haround) closed hclosed
      simp [Scope.containsLine, hclosed] at hcontains
      omega
  have hmem := (hcoherent.open_iff other around haround).mp hlast
  rw [hlive] at hmem
  rcases List.mem_cons.mp hmem with rfl | hmem
  · rw [hscope] at haround
    cases haround
    exact .inr ⟨rfl, Nat.le_refl _⟩
  · obtain ⟨before, below, rfl⟩ := List.append_of_mem hmem
    obtain ⟨same, hsame, _, hlevel⟩ := hcoherent.stacked other below (by
      rw [hlive, ← List.cons_append]
      exact List.suffix_append _ _)
    rw [haround] at hsame
    cases hsame
    left
    rw [hdepth, hlevel, List.length_append, List.length_cons]
    omega

private theorem lookupAt?_eq (h : Within line table) (hcoherent : Coherent table.scopes table.live)
    (name : String) : table.lookupAt? name line = table.lookup? name := by
  have hlatest (scope : Scope) (hmem : scope ∈ table.scopes) :
      scope.latestAt name line = scope.latestAt name table.position := by
    have hall (limit : Nat) (hle : table.position ≤ limit) :
        (scope.versions name).filter (fun b => b.line ≤ limit) = scope.versions name := by
      rw [List.filter_eq_self]
      intro b hb
      have := h.bound scope hmem b (Scope.mem_versions.mp hb).1
      simp only [decide_eq_true_eq]
      omega
    rw [Scope.latestAt_eq, Scope.latestAt_eq, hall line h.position, hall _ (Nat.le_refl _)]
  obtain ⟨outer, hlive⟩ := List.head?_eq_some_iff.mp table.head?_live
  have hout := hcoherent.outwards_live
  rw [hlive] at hout
  rw [lookupAt?, scopeAt?_eq_some.mpr (h.deepest_current hcoherent), Option.bind_some,
    findOutwards_eq hcoherent name line hout, ← hlive, lookup?]
  exact findIn_congr hlatest table.live

end Within

private theorem Chronological.late {operations : List Operation} (h : Chronological operations)
    {line : Nat} (hleft : ∀ first, operations.head? = some first → first.isWithin line = false) :
    ∀ operation ∈ operations, line ≤ operation.line ∧
      (operation.isPop = false → line < operation.line) := by
  cases operations with
  | nil => exact nofun
  | cons first operations =>
    have hfirst := Operation.not_isWithin_iff.mp (hleft first rfl)
    refine List.forall_mem_cons.mpr ⟨hfirst, ?_⟩
    intro operation hmem
    have hgrow := (List.pairwise_cons.mp h.growing).1 operation hmem
    refine ⟨by omega, fun hpop => ?_⟩
    cases hkind : first.isPop with
    | false =>
      have := hfirst.2 hkind
      omega
    | true =>
      have := (List.pairwise_cons.mp h.apart).1 operation hmem hkind hpop
      omega

private theorem lookupAt?_run {table : SymbolTable} (hcoherent : Coherent table.scopes table.live)
    {line : Nat} {operations : List Operation}
    (hlate : ∀ operation ∈ operations, line ≤ operation.line ∧
      (operation.isPop = false → line < operation.line)) (name : String) :
    (table.run operations).lookupAt? name line = table.lookupAt? name line := by
  induction operations generalizing table with
  | nil => rfl
  | cons operation operations ih =>
    obtain ⟨hline, hlater⟩ := hlate operation (by simp)
    have hnext := coherent_step hcoherent operation
    have hstep := (agreeAt_step hcoherent hline hlater).lookupAt? hcoherent hnext name
    rw [← hstep]
    exact ih hnext fun other hmem => hlate other (by simp [hmem])

/-- After operations in the order of the script, the table tells for every line what its lookups told
just before the first operation that left the line: one on a later line, or one that closed a scope on
this line. -/
theorem lookupAt?_run_eq (operations : List Operation) (h : Chronological operations)
    (name : String) (line : Nat) :
    (empty.run operations).lookupAt? name line =
      (empty.run (operations.takeWhile (·.isWithin line))).lookup? name := by
  have hsplit := List.takeWhile_append_dropWhile (p := (·.isWithin line)) (l := operations)
  have hcoherent := coherent_run Coherent.empty (operations.takeWhile (·.isWithin line))
  have hwithin : Within line (empty.run (operations.takeWhile (·.isWithin line))) := by
    refine (Within.empty line).run Coherent.empty ?_ ?_
    · intro operation hmem
      exact h.steady operation ((List.takeWhile_prefix _).mem hmem)
    · exact fun operation hmem => List.all_eq_true.mp List.all_takeWhile operation hmem
  have hlate : ∀ operation ∈ operations.dropWhile (·.isWithin line), line ≤ operation.line ∧
      (operation.isPop = false → line < operation.line) := by
    have hsub := List.dropWhile_sublist (·.isWithin line) (l := operations)
    refine Chronological.late ⟨?_, h.growing.sublist hsub, h.apart.sublist hsub⟩ ?_
    · exact fun operation hmem => h.steady operation (hsub.mem hmem)
    · intro first hfirst
      have hnot := List.head?_dropWhile_not (·.isWithin line) operations
      rw [hfirst] at hnot
      simpa using hnot
  rw [← hwithin.lookupAt?_eq hcoherent name, ← lookupAt?_run hcoherent hlate name, ← run_append,
    hsplit]

/-- Of two scopes that are closed on one line the inner one is still seen from this line, also after a
later binding of the same name in the global scope. -/
theorem lookupAt?_run_nested :
    let inner : Binding := ⟨"x", .primitive .int, 3⟩
    let operations : List Operation := [.push "f" 1, .push "g" 2, .define inner, .pop 4, .pop 4,
      .define ⟨"x", .any, 5⟩]
    Chronological operations ∧ (empty.run operations).lookupAt? "x" 4 = some ⟨inner, 2, 2⟩ := by
  intro inner operations
  have hordered : Chronological operations := by
    refine ⟨?_, by decide, by decide⟩
    intro operation hmem line heq
    subst heq
    simp [operations] at hmem
  refine ⟨hordered, ?_⟩
  rw [lookupAt?_run_eq operations hordered]
  decide

end SymbolTable

end QuantumScript
