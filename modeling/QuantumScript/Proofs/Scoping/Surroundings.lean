import QuantumScript.Proofs.Scoping.Growth
import QuantumScript.Proofs.Scoping.Lookups
/-!
# Surroundings of a scope

While scopes are opened and closed inside the current one, the scopes around it stay open below them and
stay as they are. So a name that none of the scopes opened since has a version of means the same as
before, from the same position.
-/

namespace QuantumScript

/-- A scope without a version of a name tells nothing of it. -/
theorem Scope.latestAt_of_versions_nil {scope : Scope} {name : String} (h : scope.versions name = [])
    (line : Nat) : scope.latestAt name line = none := by
  rw [latestAt, h]
  rfl

namespace SymbolTable

/-- Scopes that know nothing are passed over. -/
theorem findIn_append_of_none {scopes : List Scope} {find : Scope → Option Binding}
    {inner : List Nat} (h : ∀ id ∈ inner, scopes[id]?.bind find = none) (ids : List Nat) :
    findIn scopes find (inner ++ ids) = findIn scopes find ids := by
  induction inner with
  | nil => rfl
  | cons id inner ih =>
    obtain ⟨hfirst, hrest⟩ := List.forall_mem_cons.mp h
    rw [List.cons_append, findIn, hfirst]
    exact ih hrest

/-- Only what the scopes looked at answer matters. -/
theorem findIn_congr_ids {scopes others : List Scope} {find other : Scope → Option Binding}
    {ids : List Nat} (h : ∀ id ∈ ids, scopes[id]?.bind find = others[id]?.bind other) :
    findIn scopes find ids = findIn others other ids := by
  induction ids with
  | nil => rfl
  | cons id ids ih =>
    obtain ⟨hfirst, hrest⟩ := List.forall_mem_cons.mp h
    rw [findIn, findIn, hfirst, ih hrest]

/-- All open scopes are there. -/
def Grounded (table : SymbolTable) : Prop := ∀ id ∈ table.live, id < table.scopes.length

theorem Coherent.grounded {table : SymbolTable} (h : Coherent table.scopes table.live) :
    table.Grounded := fun _ hmem => h.lt_of_mem hmem

/-- The table comes from the base by opening the scopes inside its current scope. The scopes that were
there are as they were, but for the current one. -/
structure Surrounds (base : SymbolTable) (opened : List Nat) (table : SymbolTable) : Prop where
  inner : table.inner = opened ++ base.inner
  opened_ge : ∀ id ∈ opened, base.scopes.length ≤ id
  length_le : base.scopes.length ≤ table.scopes.length
  kept : ∀ id < base.scopes.length, id ≠ base.current → table.scopes[id]? = base.scopes[id]?

namespace Surrounds

variable {base table : SymbolTable} {opened : List Nat}

theorem refl (base : SymbolTable) : Surrounds base [] base :=
  ⟨rfl, nofun, Nat.le_refl _, fun _ _ _ => rfl⟩

theorem live (h : Surrounds base opened table) : table.live = opened ++ base.live := by
  rw [SymbolTable.live, h.inner, List.append_assoc]
  rfl

theorem current (h : Surrounds base opened table) : table.current = opened.headD base.current := by
  rw [SymbolTable.current, h.inner]
  cases opened <;> rfl

theorem seek (h : Surrounds base opened table) (line : Nat) :
    Surrounds base opened (table.seek line) := ⟨h.inner, h.opened_ge, h.length_le, h.kept⟩

theorem define (h : Surrounds base opened table) (binding : Binding) :
    Surrounds base opened (table.define binding) := by
  have hscopes : (table.define binding).scopes =
      table.scopes.modify table.current fun scope => scope.insert binding := rfl
  refine ⟨h.inner, h.opened_ge, ?_, ?_⟩
  · rw [hscopes, List.length_modify]
    exact h.length_le
  · intro id hid hne
    have hother : table.current ≠ id := by
      rw [h.current]
      cases opened with
      | nil => exact Ne.symm hne
      | cons first rest =>
        have hfirst := h.opened_ge first List.mem_cons_self
        simp only [List.headD_cons]
        omega
    rw [hscopes, List.getElem?_modify_ne _ _ hother]
    exact h.kept id hid hne

theorem push (h : Surrounds base opened table) (name : String) (line : Nat) :
    Surrounds base (table.scopes.length :: opened) (table.push name line) := by
  have hscopes : (table.push name line).scopes =
      table.scopes ++ [⟨name, line, none, some table.current, table.openCount, []⟩] := rfl
  have hinner : (table.push name line).inner = table.scopes.length :: table.inner := rfl
  refine ⟨?_, List.forall_mem_cons.mpr ⟨h.length_le, h.opened_ge⟩, ?_, ?_⟩
  · rw [hinner, h.inner, List.cons_append]
  · rw [hscopes, List.length_append]
    exact Nat.le_trans h.length_le (Nat.le_add_right _ _)
  · intro id hid hne
    rw [hscopes, List.getElem?_append_left (Nat.lt_of_lt_of_le hid h.length_le)]
    exact h.kept id hid hne

theorem pop {id : Nat} (h : Surrounds base (id :: opened) table) (line : Nat) :
    Surrounds base opened (table.step (.pop line)) := by
  obtain ⟨hid, hopened⟩ := List.forall_mem_cons.mp h.opened_ge
  have hinner : table.inner = id :: (opened ++ base.inner) := h.inner
  have hstep : table.step (.pop line) = ({ table with
      scopes := table.scopes.modify id fun scope => { scope with closedAt := some line }
      inner := opened ++ base.inner } : SymbolTable).reach line := by
    simp only [step, SymbolTable.pop, hinner]
  rw [hstep]
  refine ⟨rfl, hopened, ?_, ?_⟩
  · simpa only [reach, SymbolTable.seek, List.length_modify] using h.length_le
  · intro other hother hne
    have hdiffer : id ≠ other := by omega
    simp only [reach, SymbolTable.seek]
    rw [List.getElem?_modify_ne _ _ hdiffer]
    exact h.kept other hother hne

end Surrounds

/-- The table comes from the base by opening scopes inside its current scope, on a line. No scope that
was there has changed. The position is that of the base as long as no scope is open inside, and has
reached the line else. -/
structure Inside (line : Nat) (base : SymbolTable) (opened : List Nat) (table : SymbolTable) : Prop
    extends Surrounds base opened table where
  kept_current : base.current < base.scopes.length →
    table.scopes[base.current]? = base.scopes[base.current]?
  position : table.position = if opened = [] then base.position else max base.position line

namespace Inside

variable {line : Nat} {base table : SymbolTable} {opened : List Nat}

theorem refl (line : Nat) (base : SymbolTable) : Inside line base [] base :=
  ⟨Surrounds.refl base, fun _ => rfl, rfl⟩

theorem scopes (h : Inside line base opened table) {id : Nat} (hid : id < base.scopes.length) :
    table.scopes[id]? = base.scopes[id]? := by
  by_cases hcurrent : id = base.current
  · subst hcurrent
    exact h.kept_current hid
  · exact h.kept id hid hcurrent

/-- What is bound inside goes to the scope opened last. -/
theorem define (h : Inside line base opened table) (hopened : opened ≠ []) (name : String)
    (type : SymbolType) : Inside line base opened (table.define ⟨name, type, line⟩) := by
  refine ⟨h.toSurrounds.define _, ?_, ?_⟩
  · intro hless
    have hother : table.current ≠ base.current := by
      rw [h.current]
      cases opened with
      | nil => exact absurd rfl hopened
      | cons first rest =>
        have hfirst := h.opened_ge first List.mem_cons_self
        simp only [List.headD_cons]
        omega
    have hscopes : (table.define ⟨name, type, line⟩).scopes =
        table.scopes.modify table.current fun scope => scope.insert ⟨name, type, line⟩ := rfl
    rw [hscopes, List.getElem?_modify_ne _ _ hother]
    exact h.kept_current hless
  · have hposition : (table.define ⟨name, type, line⟩).position = max table.position line := rfl
    rw [hposition, h.position, if_neg hopened]
    omega

theorem push (h : Inside line base opened table) (name : String) :
    Inside line base (table.scopes.length :: opened) (table.push name line) := by
  refine ⟨h.toSurrounds.push name line, ?_, ?_⟩
  · intro hless
    have hscopes : (table.push name line).scopes =
        table.scopes ++ [⟨name, line, none, some table.current, table.openCount, []⟩] := rfl
    rw [hscopes, List.getElem?_append_left (Nat.lt_of_lt_of_le hless h.length_le)]
    exact h.kept_current hless
  · have hposition : (table.push name line).position = max table.position line := rfl
    rw [hposition, h.position, if_neg (List.cons_ne_nil _ _)]
    split <;> omega

/-- A scope inside is closed, and the position goes back to where it was. -/
theorem leave {mid : SymbolTable} {id : Nat} (h : Inside line base opened table)
    (hmid : Inside line base (id :: opened) mid) :
    Inside line base opened ((mid.step (.pop line)).seek table.position) := by
  refine ⟨(hmid.toSurrounds.pop line).seek _, ?_, h.position⟩
  intro hless
  have hid := hmid.opened_ge id List.mem_cons_self
  have hscopes : (mid.step (.pop line)).scopes =
      mid.scopes.modify id fun scope => { scope with closedAt := some line } := by
    have hinner : mid.inner = id :: (opened ++ base.inner) := hmid.inner
    simp only [step, SymbolTable.pop, hinner]
    rfl
  have hother : id ≠ base.current := by omega
  rw [SymbolTable.seek, hscopes, List.getElem?_modify_ne _ _ hother]
  exact hmid.kept_current hless

/-- What is open in the end is inside the base, with all that came in between. -/
theorem trans {mid : SymbolTable} {more : List Nat} (h : Inside line base opened mid)
    (hmore : Inside line mid more table) : Inside line base (more ++ opened) table := by
  have hlength := h.length_le
  refine ⟨⟨?_, ?_, ?_, ?_⟩, ?_, ?_⟩
  · rw [hmore.inner, h.inner, List.append_assoc]
  · refine List.forall_mem_append.mpr ⟨?_, h.opened_ge⟩
    intro id hmem
    exact Nat.le_trans hlength (hmore.opened_ge id hmem)
  · exact Nat.le_trans hlength hmore.length_le
  · intro id hid hne
    rw [hmore.scopes (Nat.lt_of_lt_of_le hid hlength)]
    exact h.kept id hid hne
  · intro hless
    rw [hmore.scopes (Nat.lt_of_lt_of_le hless hlength)]
    exact h.kept_current hless
  · rw [hmore.position, h.position]
    by_cases hopened : opened = []
    · simp [hopened]
    · simp only [hopened, List.append_eq_nil_iff, and_false, if_false]
      split <;> omega

/-- The same bindings made in the current scope of both tables keep the one inside the other. -/
theorem define_both (h : Inside line base [] table) (binding : Binding) :
    Inside line (base.define binding) [] (table.define binding) := by
  have hcurrent : table.current = base.current := h.current
  have hbase : (base.define binding).scopes =
      base.scopes.modify base.current fun scope => scope.insert binding := rfl
  have htable : (table.define binding).scopes =
      table.scopes.modify base.current fun scope => scope.insert binding := by
    rw [← hcurrent]
    rfl
  have hlength : (base.define binding).scopes.length = base.scopes.length := by
    rw [hbase, List.length_modify]
  have hsame : ∀ id < (base.define binding).scopes.length,
      (table.define binding).scopes[id]? = (base.define binding).scopes[id]? := by
    intro id hid
    rw [hbase, htable, List.getElem?_modify, List.getElem?_modify, h.scopes (hlength ▸ hid)]
  refine ⟨⟨h.inner, nofun, ?_, fun id hid _ => hsame id hid⟩, hsame _, ?_⟩
  · rw [hlength, htable, List.length_modify]
    exact h.length_le
  · exact congrArg (fun position => max position binding.line) h.position

theorem foldl_define (h : Inside line base [] table) (bindings : List Binding) :
    Inside line (bindings.foldl SymbolTable.define base) [] (bindings.foldl SymbolTable.define table) := by
  induction bindings generalizing base table with
  | nil => exact h
  | cons binding rest ih => exact ih (h.define_both binding)

/-- A name that the scopes opened inside have no version of means what it means in the base, from any
position. -/
theorem lookup?_seek (h : Inside line base opened table) (hgrounded : base.Grounded) {name : String}
    (hnone : ∀ id ∈ opened, ∀ scope, table.scopes[id]? = some scope → scope.versions name = [])
    (position : Nat) : (table.seek position).lookup? name = (base.seek position).lookup? name := by
  have hskip : ∀ id ∈ opened,
      table.scopes[id]?.bind (fun scope => scope.latestAt name position) = none := by
    intro id hmem
    cases hscope : table.scopes[id]? with
    | none => rfl
    | some scope => exact Scope.latestAt_of_versions_nil (hnone id hmem scope hscope) _
  have hlookup : (table.seek position).lookup? name =
      findIn table.scopes (fun scope => scope.latestAt name position) table.live := rfl
  rw [hlookup, h.live, findIn_append_of_none hskip]
  refine findIn_congr_ids fun id hmem => ?_
  rw [h.scopes (hgrounded id hmem)]
  rfl

/-- With no scope open inside, every name means what it means in the base. -/
theorem lookup?_eq (h : Inside line base [] table) (hgrounded : base.Grounded) (name : String) :
    table.lookup? name = base.lookup? name := by
  have hposition : table.seek base.position = table := by
    have hsame : table.position = base.position := h.position
    rw [SymbolTable.seek, ← hsame]
  calc table.lookup? name = (table.seek base.position).lookup? name := by rw [hposition]
    _ = (base.seek base.position).lookup? name := h.lookup?_seek hgrounded (List.forall_mem_nil _) _
    _ = base.lookup? name := rfl

theorem resolve?_eq (h : Inside line base [] table) (hgrounded : base.Grounded) (name : String) :
    table.resolve? name = base.resolve? name := by
  have hdeclared : table.lookupDeclared? name = base.lookupDeclared? name := by
    rw [lookupDeclared?, lookupDeclared?, h.live, List.nil_append]
    refine findIn_congr_ids fun id hmem => ?_
    rw [h.scopes (hgrounded id hmem)]
  rw [resolve?, resolve?, h.lookup?_eq hgrounded, hdeclared]

end Inside

end SymbolTable

end QuantumScript
