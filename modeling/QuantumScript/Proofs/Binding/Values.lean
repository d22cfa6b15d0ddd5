import QuantumScript.Proofs.Binding.Assignments
/-!
# What the value of an assignment reads

An assignment reads the bindings of the lines above its own. So `x = x + 1` reads the version of `x`
that was made above it. This holds of all that stands directly in the value as long as no target is a
list of targets; inside lambdas and comprehensions, and after a list of targets has been bound, the
bindings made on the line itself are read too.
-/

namespace QuantumScript

namespace Text.LineIndex

/-- Lines are counted from one. -/
theorem one_le_line (index : LineIndex) (offset : Nat) : 1 ≤ index.line offset := by
  unfold line lineColumn
  dsimp only
  split
  · rename_i line hlast
    exact List.length_pos_of_mem (List.mem_of_getLast? hlast)
  · exact Nat.le_refl 1

end Text.LineIndex

namespace Scope

private theorem latestAt_eq_above {scope : Scope} {name : String} {line : Nat}
    (h : ∀ version ∈ scope.versions name, version.line ≠ line) :
    scope.latestAt name line = scope.latestAt name (line - 1) := by
  have hsame : (scope.versions name).filter (fun binding => decide (binding.line ≤ line)) =
      (scope.versions name).filter fun binding => decide (binding.line ≤ line - 1) := by
    refine List.filter_congr fun version hmem => ?_
    have hne := h version hmem
    rw [decide_eq_decide]
    omega
  rw [latestAt, latestAt, hsame]

end Scope

namespace SymbolTable

@[simp] theorem live_foldl_define (bindings : List Binding) (table : SymbolTable) :
    (bindings.foldl define table).live = table.live := by
  induction bindings generalizing table with
  | nil => rfl
  | cons binding rest ih => exact ih (table.define binding)

@[simp] theorem current_foldl_define (bindings : List Binding) (table : SymbolTable) :
    (bindings.foldl define table).current = table.current := by
  induction bindings generalizing table with
  | nil => rfl
  | cons binding rest ih => exact ih (table.define binding)

@[simp] theorem length_foldl_define (bindings : List Binding) (table : SymbolTable) :
    (bindings.foldl define table).scopes.length = table.scopes.length := by
  induction bindings generalizing table with
  | nil => rfl
  | cons binding rest ih => exact (ih (table.define binding)).trans (List.length_modify _ _ _)

theorem coherent_foldl_define {table : SymbolTable} (h : Coherent table.scopes table.live)
    (bindings : List Binding) :
    Coherent (bindings.foldl define table).scopes (bindings.foldl define table).live := by
  induction bindings generalizing table with
  | nil => exact h
  | cons binding rest ih => exact ih (coherent_step h (.define binding))

private theorem position_foldl_define (names : List String) (type : SymbolType) (line : Nat)
    (table : SymbolTable) :
    ((Binding.all names type line).foldl define table).position =
      if names = [] then table.position else max table.position line := by
  induction names generalizing table with
  | nil => rfl
  | cons name rest ih =>
    have hstep := ih (table.define ⟨name, type, line⟩)
    have hposition : (table.define ⟨name, type, line⟩).position = max table.position line := rfl
    rw [hposition] at hstep
    rw [if_neg (List.cons_ne_nil _ _)]
    refine hstep.trans ?_
    split <;> omega

/-- What is bound further down is not read above. -/
theorem lookup?_define_below {table : SymbolTable} (h : Coherent table.scopes table.live)
    {binding : Binding} {line : Nat} (hline : line < binding.line) (name : String) :
    ((table.define binding).seek line).lookup? name = (table.seek line).lookup? name := by
  have hscopes : (table.define binding).scopes =
      table.scopes.modify table.current fun scope => scope.insert binding := rfl
  refine findIn_congr_ids fun id _ => ?_
  simp only [SymbolTable.seek, hscopes]
  rw [List.getElem?_modify]
  cases hscope : table.scopes[id]? with
  | none => rfl
  | some scope =>
    by_cases hid : table.current = id
    · have hlate : ¬(binding.name = name ∧ binding.line ≤ line) := by omega
      simp [hid, Scope.latestAt_insert (h.ordered id scope hscope), hlate]
    · simp [hid]

private theorem lookup?_foldl_define_below {table : SymbolTable} (h : Coherent table.scopes table.live)
    {bindings : List Binding} {line : Nat} (hline : ∀ binding ∈ bindings, line < binding.line)
    (name : String) :
    ((bindings.foldl define table).seek line).lookup? name = (table.seek line).lookup? name := by
  induction bindings generalizing table with
  | nil => rfl
  | cons binding rest ih =>
    obtain ⟨hfirst, hrest⟩ := List.forall_mem_cons.mp hline
    exact (ih (coherent_step h (.define binding)) hrest).trans (lookup?_define_below h hfirst name)

private theorem lookup?_eq_above {table : SymbolTable} {name : String} {line : Nat}
    (h : ∀ id ∈ table.live, ∀ scope, table.scopes[id]? = some scope →
      ∀ version ∈ scope.versions name, version.line ≠ line) :
    (table.seek line).lookup? name = (table.seek (line - 1)).lookup? name := by
  refine findIn_congr_ids fun id hmem => ?_
  simp only [SymbolTable.seek]
  cases hscope : table.scopes[id]? with
  | none => rfl
  | some scope => exact Scope.latestAt_eq_above (h id hmem scope hscope)

private theorem line_le_of_lookup? {table : SymbolTable} {name : String} {record : Record}
    (h : table.lookup? name = some record) : record.binding.line ≤ table.position := by
  obtain ⟨inner, outer, _, _, _, hfound⟩ := findIn_eq_some.mp h
  obtain ⟨scope, _, hlatest⟩ := Option.bind_eq_some_iff.mp hfound
  exact (Scope.mem_of_latestAt hlatest).2

end SymbolTable

namespace Inference

open SymbolTable
open Text (LineIndex)

section Reads

variable {index : LineIndex} {line : Nat} {left : List Ast.Expr} {value : Ast.Expr} {state : State}
  {use : Use} {opened : List Nat}

/-- When the walk of the value begins, the names listed in the targets are bound, and nothing else. -/
theorem inside_atValue (index : LineIndex) (line : Nat) (left : List Ast.Expr) (value : Ast.Expr)
    (state : State) :
    Inside line ((Binding.listed line left).foldl SymbolTable.define (state.table.seek (line - 1))) []
      (state.atValue index line left value).table :=
  (run_targets index line left { state with table := state.table.seek (line - 1) }).1

/-- A use in the value is looked up on the line above as long as nothing brought the position to the
line itself. -/
private theorem position_of_inside
    (h : Inside line (state.atValue index line left value).table opened use.table) :
    use.table.position =
      if opened = [] ∧ left.flatMap Ast.Expr.listed = [] then line - 1 else line := by
  rw [h.position, (inside_atValue index line left value state).position, if_pos rfl, Binding.listed,
    position_foldl_define]
  have hstart : (state.table.seek (line - 1)).position = line - 1 := rfl
  simp only [List.map_eq_nil_iff, hstart]
  by_cases hopened : opened = [] <;> by_cases hlisted : left.flatMap Ast.Expr.listed = [] <;>
    simp [hopened, hlisted]

end Reads

/-- An assignment reads the bindings above it. A use in its value of a name that no lambda and no
comprehension around the use binds means the latest version made above the line, in the innermost open
scope that has one, if the use stands in no lambda or comprehension of the value and no target is a list
with a name in it, or if no open scope has a version of the name made on the line. Else the versions
made on the line are read as well. -/
theorem assignment_reads_above (index : LineIndex) (owner : Option ClassType) (extent : Ast.Extent)
    (left : List Ast.Expr) (value : Ast.Expr) (hint : Option Ast.Holder) (state : State)
    (hcoherent : Coherent state.table.scopes state.table.live) :
    let line := index.firstLine extent
    let above := state.table.seek (line - 1)
    let begun := state.atValue index line left value
    let walked := ((expr index line true value).run begun).2
    let later := ((statement index owner
      (.expressionStatement extent (left ++ [value]) true false hint)).run state).2
    ∃ uses, walked.uses = begun.uses ++ uses ∧ later.uses = walked.uses ∧
      ∀ use ∈ uses, ∃ opened, use.table.live = opened ++ state.table.live ∧
        (∀ id ∈ opened, state.table.scopes.length ≤ id) ∧
        ((∀ id ∈ opened, ∀ scope, use.table.scopes[id]? = some scope →
            scope.versions use.site.text = []) →
          let plain := opened = [] ∧ left.flatMap Ast.Expr.listed = []
          (plain ∨ (∀ id ∈ state.table.live, ∀ scope, begun.table.scopes[id]? = some scope →
              ∀ version ∈ scope.versions use.site.text, version.line ≠ line) →
            ∀ record, above.lookup? use.site.text = some record →
              use.record = some record ∧ record.binding.line < line) ∧
          (¬plain → use.table.lookup? use.site.text =
            (begun.table.seek line).lookup? use.site.text)) := by
  intro line above begun walked later
  have hline : 1 ≤ line := index.one_le_line _
  have hlocal : Local line false (true && value.startsAtName) (expr index line true value) :=
    local_expr index true value
  have hstays := hlocal.stays_self begun
  obtain ⟨uses, huses, hinside⟩ := hstays.uses
  obtain ⟨_, hrun⟩ := run_assignment index owner extent left value hint state
  refine ⟨uses, huses, (congrArg State.uses hrun).trans rfl, ?_⟩
  intro use hmem
  obtain ⟨opened, hopened⟩ := hinside use hmem
  rw [List.append_nil] at hopened
  -- The table of the use lies inside the one that has the listed names bound.
  let bound := (Binding.listed line left).foldl SymbolTable.define above
  have hbegun : Inside line bound [] begun.table := inside_atValue index line left value state
  have habove : Coherent above.scopes above.live := hcoherent
  have hbound : Coherent bound.scopes bound.live := coherent_foldl_define habove _
  have hlive : bound.live = state.table.live := live_foldl_define _ _
  have hlength : bound.scopes.length = state.table.scopes.length := length_foldl_define _ _
  have hwithin : Inside line bound opened use.table := by
    have hboth := hbegun.trans hopened
    rwa [List.append_nil] at hboth
  refine ⟨opened, ?_, ?_, ?_⟩
  · rw [hwithin.live, hlive]
  · intro id hid
    rw [← hlength]
    exact hwithin.opened_ge id hid
  intro hnone plain
  have hread : (begun.table.seek line).lookup? use.site.text = (bound.seek line).lookup? use.site.text :=
    hbegun.lookup?_seek hbound.grounded nofun line
  have hlookup : use.table.lookup? use.site.text = (bound.seek use.table.position).lookup? use.site.text :=
    hwithin.lookup?_seek hbound.grounded hnone use.table.position
  rw [position_of_inside hopened] at hlookup
  have hbelow : (bound.seek (line - 1)).lookup? use.site.text = above.lookup? use.site.text := by
    refine lookup?_foldl_define_below habove ?_ _
    intro binding hmem
    obtain ⟨name, _, rfl⟩ := List.mem_map.mp hmem
    show line - 1 < line
    omega
  constructor
  · intro hcondition record hrecord
    have hfound : use.table.lookup? use.site.text = some record := by
      rw [hlookup]
      rcases hcondition with hplain | hfree
      · rw [if_pos hplain, hbelow, hrecord]
      · have hline' : (bound.seek line).lookup? use.site.text = above.lookup? use.site.text := by
          refine Eq.trans (lookup?_eq_above ?_) hbelow
          intro id hid scope hscope
          rw [hlive] at hid
          refine hfree id hid scope ?_
          rw [hbegun.scopes (hbound.lt_of_mem (hlive ▸ hid)), hscope]
        split
        · rw [hbelow, hrecord]
        · rw [hline', hrecord]
    constructor
    · rw [Use.record, SymbolTable.resolve?, hfound, Option.some_or]
    · have hle : record.binding.line ≤ line - 1 := line_le_of_lookup? hrecord
      omega
  · intro hplain
    rw [hlookup, if_neg hplain, hread]

/-- Where `x` is bound on the first line, the value of `x = x` on the second line reads that version,
although the second line binds `x` too. -/
theorem own_name_reads_above :
    let index : LineIndex := .ofText "\nx=x".toList
    let leaf (start : Nat) : Ast.Leaf := ⟨.name, "x", ⟨start, start + 1⟩⟩
    let side (start : Nat) : Ast.Expr :=
      .name ⟨⟨⟨start, start + 1⟩, some (leaf start), start + 1⟩, some (leaf start)⟩
    let extent : Ast.Extent := ⟨⟨1, 4⟩, some (leaf 1), 4⟩
    let table := ((initial false).define ⟨"x", .primitive .int, 1⟩).define ⟨"x", .any, 2⟩
    let later := ((statement index none
      (.expressionStatement extent ([side 1] ++ [side 3]) true false none)).run (.start table)).2
    later.uses.map Use.record = [some ⟨⟨"x", .primitive .int, 1⟩, 0, 0⟩] := by
  intro index leaf side extent table later
  have hcoherent : Coherent table.scopes table.live :=
    coherent_run (coherent_initial false) [.define ⟨"x", .primitive .int, 1⟩, .define ⟨"x", .any, 2⟩]
  obtain ⟨uses, hwalked, hlater, hreads⟩ := assignment_reads_above index none extent [side 1] (side 3)
    none (.start table) hcoherent
  rw [hlater, hwalked]
  have hone : uses = [⟨index.leafSite (leaf 3), table.seek 1⟩] := hwalked.symm
  subst hone
  obtain ⟨opened, hlive, _, hread⟩ := hreads _ (List.mem_singleton_self _)
  obtain rfl : opened = [] := by
    cases opened with
    | nil => rfl
    | cons id rest => cases rest <;> cases hlive
  obtain ⟨habove, _⟩ := hread nofun
  obtain ⟨hrecord, _⟩ := habove (.inl ⟨rfl, rfl⟩) ⟨⟨"x", .primitive .int, 1⟩, 0, 0⟩ (by decide)
  exact congrArg (fun record => [record]) hrecord

end Inference

end QuantumScript
