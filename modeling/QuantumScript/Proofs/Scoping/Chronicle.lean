import QuantumScript.Proofs.Scoping.Lookups
/-!
# Chronicle of bindings

All that was ever bound, in order, with the scope it was bound in. Every lookup can be answered from
the chronicle by looking through all of it, although the table keeps its bindings by line and leaves
out those that repeat one.
-/

namespace QuantumScript

namespace Binding

/-- The binding is made no earlier than the other one. -/
def isNotBefore (binding other : Binding) : Bool := other.line ≤ binding.line

/-- The binding is made on an earlier line than the other one. -/
def isBefore (binding other : Binding) : Bool := binding.line < other.line

end Binding

/-- The binding beats all that come before it, and nothing that comes after beats it. -/
def Chosen (beats : Binding → Binding → Bool) (bindings : List Binding) (binding : Binding) : Prop :=
  ∃ before after, bindings = before ++ binding :: after ∧
    (∀ other ∈ before, beats binding other = true) ∧ ∀ other ∈ after, beats other binding = false

/-- Of the bindings the one with the greatest line, and the last one of these. -/
def Latest : List Binding → Binding → Prop := Chosen Binding.isNotBefore

/-- Of the bindings the one with the least line, and the first one of these. -/
def Earliest : List Binding → Binding → Prop := Chosen Binding.isBefore

section Scans

variable (beats : Binding → Binding → Bool)

/-- Keeps the better one of two bindings. -/
def better (best : Option Binding) (binding : Binding) : Option Binding :=
  match best with
  | some other => if beats binding other then some binding else some other
  | none => some binding

private theorem foldl_better_none {bindings : List Binding} :
    bindings.foldl (better beats) none = none ↔ bindings = [] := by
  induction bindings using List.reverseRecOn with
  | nil => simp
  | append_singleton bindings binding ih =>
    rw [List.foldl_concat, better.eq_def]
    split
    · split <;> simp
    · simp

private theorem chosen_concat {bindings : List Binding} {last binding : Binding} :
    Chosen beats (bindings ++ [last]) binding ↔
      (Chosen beats bindings binding ∧ beats last binding = false) ∨
        (binding = last ∧ ∀ other ∈ bindings, beats last other = true) := by
  constructor
  · rintro ⟨before, after, heq, hbefore, hafter⟩
    rcases List.eq_nil_or_concat after with rfl | ⟨behind, final, rfl⟩
    · obtain ⟨rfl, hlast⟩ := List.append_inj' heq rfl
      obtain rfl : last = binding := List.singleton_inj.mp hlast
      exact .inr ⟨rfl, hbefore⟩
    · rw [List.concat_eq_append, ← List.cons_append, ← List.append_assoc] at heq
      obtain ⟨rfl, hlast⟩ := List.append_inj' heq rfl
      obtain rfl : last = final := List.singleton_inj.mp hlast
      rw [List.concat_eq_append, List.forall_mem_append] at hafter
      exact .inl ⟨⟨before, behind, rfl, hbefore, hafter.1⟩, hafter.2 last (by simp)⟩
  · rintro (⟨⟨before, after, rfl, hbefore, hafter⟩, hlast⟩ | ⟨rfl, hall⟩)
    · refine ⟨before, after ++ [last], by simp, hbefore, ?_⟩
      exact List.forall_mem_append.mpr ⟨hafter, List.forall_mem_singleton.mpr hlast⟩
    · exact ⟨bindings, [], rfl, hall, fun _ hmem => absurd hmem List.not_mem_nil⟩

variable {beats}

/-- Looking through all bindings once finds the one that is chosen, if what beats a binding also beats
all that it beats and all that do not beat it. -/
private theorem foldl_better (htrans : ∀ a b c, beats a b = true → beats b c = true → beats a c = true)
    (hweak : ∀ a b c, beats a b = true → beats c b = false → beats a c = true)
    (bindings : List Binding) (binding : Binding) :
    bindings.foldl (better beats) none = some binding ↔ Chosen beats bindings binding := by
  induction bindings using List.reverseRecOn generalizing binding with
  | nil =>
    rw [List.foldl_nil]
    constructor
    · intro hsome
      cases hsome
    · rintro ⟨before, after, hnil, _⟩
      simp at hnil
  | append_singleton bindings last ih =>
    rw [List.foldl_concat, better.eq_def, chosen_concat]
    cases hbest : bindings.foldl (better beats) none with
    | none =>
      rw [foldl_better_none] at hbest
      subst hbest
      have hnone : ¬Chosen beats [] binding := by
        rintro ⟨before, after, hnil, _⟩
        simp at hnil
      simp [hnone, @eq_comm _ binding]
    | some other =>
      have hchosen := (ih other).mp hbest
      dsimp only
      by_cases hbeats : beats last other = true
      · have hall : ∀ b ∈ bindings, beats last b = true := by
          obtain ⟨before, after, rfl, hbefore, hafter⟩ := hchosen
          rw [List.forall_mem_append, List.forall_mem_cons]
          exact ⟨fun b hmem => htrans last other b hbeats (hbefore b hmem), hbeats,
            fun b hmem => hweak last other b hbeats (hafter b hmem)⟩
        rw [if_pos hbeats, Option.some_inj, eq_comm]
        constructor
        · exact fun heq => .inr ⟨heq, hall⟩
        · rintro (⟨⟨before, after, rfl, _⟩, hlast⟩ | ⟨heq, _⟩)
          · rw [hall binding (by simp)] at hlast
            cases hlast
          · exact heq
      · rw [if_neg hbeats, ← hbest, ih binding]
        constructor
        · intro h
          have hsame := (ih binding).mpr h
          rw [hbest, Option.some_inj] at hsame
          subst hsame
          exact .inl ⟨h, by simpa using hbeats⟩
        · rintro (⟨h, _⟩ | ⟨_, hall⟩)
          · exact h
          · obtain ⟨before, after, rfl, _⟩ := hchosen
            exact absurd (hall other (by simp)) hbeats

theorem latest_iff (bindings : List Binding) (binding : Binding) :
    bindings.foldl (better Binding.isNotBefore) none = some binding ↔ Latest bindings binding := by
  apply foldl_better <;> simp only [Binding.isNotBefore, decide_eq_true_eq, decide_eq_false_iff_not] <;>
    omega

theorem earliest_iff (bindings : List Binding) (binding : Binding) :
    bindings.foldl (better Binding.isBefore) none = some binding ↔ Earliest bindings binding := by
  apply foldl_better <;> simp only [Binding.isBefore, decide_eq_true_eq, decide_eq_false_iff_not] <;>
    omega

end Scans

/-- The scope answers as all the bindings do that were made in it, in their order. -/
structure Scope.Tells (scope : Scope) (bindings : List Binding) : Prop where
  latestAt : ∀ name line, scope.latestAt name line =
    ((bindings.filter fun b => b.name = name).filter fun b => b.line ≤ line).foldl
      (better Binding.isNotBefore) none
  first : ∀ name, (scope.versions name).head? =
    (bindings.filter fun b => b.name = name).foldl (better Binding.isBefore) none

theorem Scope.Tells.insert {scope : Scope} {bindings : List Binding} (h : scope.Tells bindings)
    (hordered : scope.Ordered) (binding : Binding) :
    (scope.insert binding).Tells (bindings ++ [binding]) := by
  constructor
  · intro name line
    rw [latestAt_insert hordered, h.latestAt, List.filter_append, List.filter_append]
    by_cases hname : binding.name = name
    · by_cases hline : binding.line ≤ line
      · rw [if_pos ⟨hname, hline⟩, List.filter_cons_of_pos (by simpa using hname), List.filter_nil,
          List.filter_cons_of_pos (by simpa using hline), List.filter_nil, List.foldl_concat]
        generalize List.foldl (better Binding.isNotBefore) none _ = best
        cases best <;> simp [better, Binding.isNotBefore]
      · rw [if_neg (fun hboth => hline hboth.2), List.filter_cons_of_pos (by simpa using hname),
          List.filter_nil, List.filter_cons_of_neg (by simpa using hline), List.filter_nil,
          List.append_nil]
    · rw [if_neg (fun hboth => hname hboth.1), List.filter_cons_of_neg (by simpa using hname),
        List.filter_nil, List.filter_nil, List.append_nil]
  · intro name
    rw [head?_versions_insert hordered, h.first, List.filter_append]
    by_cases hname : binding.name = name
    · rw [if_pos hname, List.filter_cons_of_pos (by simpa using hname), List.filter_nil,
        List.foldl_concat]
      generalize List.foldl (better Binding.isBefore) none _ = best
      cases best <;> simp [better, Binding.isBefore]
    · rw [if_neg hname, List.filter_cons_of_neg (by simpa using hname), List.filter_nil,
        List.append_nil]

/-- A binding with the scope that it was made in. -/
structure Event where
  scope : Nat
  binding : Binding

namespace Event

/-- What was bound in a scope, in order. -/
def within (scope : Nat) (events : List Event) : List Binding :=
  (events.filter fun event => event.scope = scope).map binding

/-- What was bound to a name in a scope, in order. -/
def named (events : List Event) (name : String) (scope : Nat) : List Binding :=
  (within scope events).filter fun b => b.name = name

/-- What was bound to a name in a scope no later than a line, in order. -/
def upTo (events : List Event) (name : String) (line scope : Nat) : List Binding :=
  (named events name scope).filter fun b => b.line ≤ line

end Event

namespace SymbolTable

/-- What an operation binds, and where. -/
def Operation.events (table : SymbolTable) : Operation → List Event
  | .define binding => [⟨table.current, binding⟩]
  | .push _ _ | .pop _ | .seek _ => []

/-- All that operations bind, in order. -/
def log (table : SymbolTable) : List Operation → List Event
  | [] => []
  | operation :: operations => operation.events table ++ log (table.step operation) operations

/-- Every scope of the table answers as the events in it do, and there are no other events. -/
structure Follows (table : SymbolTable) (events : List Event) : Prop where
  tells : ∀ (id : Nat) (scope : Scope), table.scopes[id]? = some scope →
    scope.Tells (Event.within id events)
  known : ∀ event ∈ events, event.scope < table.scopes.length

namespace Follows

variable {table : SymbolTable} {events : List Event}

theorem empty : Follows SymbolTable.empty [] := by
  refine ⟨?_, nofun⟩
  intro id scope hscope
  cases id with
  | zero =>
    cases hscope
    exact ⟨fun _ _ => rfl, fun _ => rfl⟩
  | succ id => cases hscope

theorem step (h : Follows table events) (hcoherent : Coherent table.scopes table.live)
    (operation : Operation) :
    Follows (table.step operation) (events ++ operation.events table) := by
  cases operation with
  | push name line =>
    rw [Operation.events, List.append_nil]
    have hscopes : (table.step (.push name line)).scopes =
        table.scopes ++ [⟨name, line, none, some table.current, table.openCount, []⟩] := rfl
    refine ⟨?_, ?_⟩
    · intro id scope hscope
      rw [hscopes] at hscope
      by_cases hid : id < table.scopes.length
      · rw [List.getElem?_append_left hid] at hscope
        exact h.tells id scope hscope
      · have hnone : Event.within id events = [] := by
          rw [Event.within, List.map_eq_nil_iff, List.filter_eq_nil_iff]
          intro event hmem
          have := h.known event hmem
          simp only [decide_eq_true_eq]
          omega
        rw [List.getElem?_append_right (by omega)] at hscope
        obtain rfl := List.mem_singleton.mp (List.mem_of_getElem? hscope)
        rw [hnone]
        exact ⟨fun _ _ => rfl, fun _ => rfl⟩
    · intro event hmem
      rw [hscopes, List.length_append]
      exact Nat.lt_add_right _ (h.known event hmem)
  | pop line =>
    rw [Operation.events, List.append_nil]
    rcases table.step_pop line with ⟨_, heq⟩ | ⟨id, outer, _, _, _, hscopes, _⟩
    · rwa [heq]
    refine ⟨?_, ?_⟩
    · intro other scope hscope
      rw [hscopes, List.getElem?_modify] at hscope
      obtain ⟨before, hbefore, rfl⟩ := Option.map_eq_some_iff.mp hscope
      have htells := h.tells other before hbefore
      split
      · exact ⟨htells.latestAt, htells.first⟩
      · exact htells
    · intro event hmem
      rw [hscopes, List.length_modify]
      exact h.known event hmem
  | define binding =>
    have hscopes : (table.step (.define binding)).scopes =
        table.scopes.modify table.current fun scope => scope.insert binding := rfl
    refine ⟨?_, ?_⟩
    · intro id scope hscope
      rw [hscopes, List.getElem?_modify] at hscope
      obtain ⟨before, hbefore, rfl⟩ := Option.map_eq_some_iff.mp hscope
      have htells := h.tells id before hbefore
      rw [Operation.events, Event.within, List.filter_append, List.map_append]
      by_cases hid : table.current = id
      · rw [if_pos hid, List.filter_cons_of_pos (by simpa using hid)]
        exact htells.insert (hcoherent.ordered id before hbefore) binding
      · rw [if_neg hid, List.filter_cons_of_neg (by simpa using hid), List.filter_nil, List.map_nil,
          List.append_nil]
        exact htells
    · rw [hscopes, List.length_modify]
      refine List.forall_mem_append.mpr ⟨h.known, ?_⟩
      exact List.forall_mem_singleton.mpr
        (hcoherent.lt_of_mem (List.mem_of_mem_head? table.head?_live))
  | seek line =>
    rw [Operation.events, List.append_nil]
    exact ⟨h.tells, h.known⟩

theorem run (h : Follows table events) (hcoherent : Coherent table.scopes table.live)
    (operations : List Operation) :
    Follows (table.run operations) (events ++ table.log operations) := by
  induction operations generalizing table events with
  | nil => rwa [log, List.append_nil]
  | cons operation operations ih =>
    rw [log, ← List.append_assoc]
    exact ih (h.step hcoherent operation) (coherent_step hcoherent operation)

end Follows

/-- The record is of the first of the scopes in which there are bindings, and of the chosen one among
them; its level is the number of scopes after it. -/
def Found (choose : List Binding → Binding → Prop) (bindings : Nat → List Binding) (ids : List Nat)
    (record : Record) : Prop :=
  ∃ inner outer, ids = inner ++ record.scope :: outer ∧ record.level = outer.length ∧
    (∀ id ∈ inner, bindings id = []) ∧ choose (bindings record.scope) record.binding

private theorem findIn_iff_found {scopes : List Scope} {find : Scope → Option Binding}
    {beats : Binding → Binding → Bool} {choose : List Binding → Binding → Prop}
    {bindings : Nat → List Binding} {ids : List Nat}
    (hscopes : ∀ id ∈ ids, id < scopes.length)
    (hfind : ∀ (id : Nat) (scope : Scope), scopes[id]? = some scope →
      find scope = (bindings id).foldl (better beats) none)
    (hchoose : ∀ bs b, bs.foldl (better beats) none = some b ↔ choose bs b) (record : Record) :
    findIn scopes find ids = some record ↔ Found choose bindings ids record := by
  have hanswer (id : Nat) (hmem : id ∈ ids) :
      scopes[id]?.bind find = (bindings id).foldl (better beats) none := by
    have hscope := List.getElem?_eq_getElem (hscopes id hmem)
    rw [hscope, Option.bind_some, hfind id _ hscope]
  rw [findIn_eq_some]
  constructor
  · rintro ⟨inner, outer, rfl, hlevel, hinner, hfound⟩
    refine ⟨inner, outer, rfl, hlevel, ?_, ?_⟩
    · intro id hmem
      rw [← foldl_better_none, ← hanswer id (by simp [hmem])]
      exact hinner id hmem
    · rwa [← hchoose, ← hanswer record.scope (by simp)]
  · rintro ⟨inner, outer, rfl, hlevel, hinner, hfound⟩
    refine ⟨inner, outer, rfl, hlevel, ?_, ?_⟩
    · intro id hmem
      rw [hanswer id (by simp [hmem]), foldl_better_none]
      exact hinner id hmem
    · rwa [hanswer record.scope (by simp), hchoose]

/-- After any operations the lookups answer as the log of all that was bound does. The visible binding
of a name is in the innermost open scope that has one up to the line reached, and is the latest of
these; the declared one is the earliest in the innermost open scope that has any; the one at a line is
in the first scope outwards from the deepest around the line that has one up to the line, and is the
latest of these. -/
theorem lookups_iff_log (operations : List Operation) (name : String) (line : Nat)
    (record : Record) :
    let table := empty.run operations
    let events := empty.log operations
    (table.lookup? name = some record ↔
      Found Latest (Event.upTo events name table.position) table.live record) ∧
    (table.lookupDeclared? name = some record ↔
      Found Earliest (Event.named events name) table.live record) ∧
    (table.lookupAt? name line = some record ↔
      ∃ id outer, Deepest table.scopes line id ∧ Outwards table.scopes (id :: outer) ∧
        Found Latest (Event.upTo events name line) (id :: outer) record) := by
  intro table events
  have hcoherent : Coherent table.scopes table.live := coherent_run Coherent.empty operations
  have hfollows : Follows table events := by
    have hrun := Follows.empty.run Coherent.empty operations
    rwa [List.nil_append] at hrun
  have hlive : ∀ id ∈ table.live, id < table.scopes.length := fun id hmem => hcoherent.lt_of_mem hmem
  refine ⟨?_, ?_, ?_⟩
  · exact findIn_iff_found hlive (fun id scope hscope => (hfollows.tells id scope hscope).latestAt _ _)
      latest_iff record
  · exact findIn_iff_found hlive (fun id scope hscope => (hfollows.tells id scope hscope).first _)
      earliest_iff record
  · have hpath {id : Nat} {outer : List Nat} (hout : Outwards table.scopes (id :: outer)) :
        findIn table.scopes (fun scope => scope.latestAt name line) (id :: outer) = some record ↔
          Found Latest (Event.upTo events name line) (id :: outer) record :=
      findIn_iff_found (fun _ hmem => hout.lt_of_mem hmem)
        (fun id scope hscope => (hfollows.tells id scope hscope).latestAt _ _) latest_iff record
    rw [lookupAt?_eq_some hcoherent]
    constructor
    · rintro ⟨id, outer, hdeepest, hout, hfound⟩
      exact ⟨id, outer, hdeepest, hout, (hpath hout).mp hfound⟩
    · rintro ⟨id, outer, hdeepest, hout, hfound⟩
      exact ⟨id, outer, hdeepest, hout, (hpath hout).mpr hfound⟩

end SymbolTable

end QuantumScript
