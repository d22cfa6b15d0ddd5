import QuantumScript.Inference.State
import QuantumScript.Proofs.Scoping.Runs
/-!
# Steps of the walk

Whatever a script looks like, its walk is put together from few kinds of steps. What holds of every such
step, and of what steps are put together to, holds of the walk of every script.

Names are bound and scopes are opened on the lines of statements only. The region that a walk keeps to
tells which lines these are.
-/

namespace QuantumScript

/-- The diagnostic tells of a name that is bound nowhere. -/
def Diagnostic.isUndefined (diagnostic : Diagnostic) : Bool :=
  match diagnostic.cause with
  | .semantic (.undefinedSymbol _) => true
  | _ => false

/-- What the diagnostic finds, if it is that a name is not defined: that of a symbol or of a type. -/
def Diagnostic.naming? (diagnostic : Diagnostic) : Option Finding :=
  match diagnostic.cause with
  | .semantic (.undefinedSymbol name) => some (.undefinedSymbol name)
  | .semantic (.unknownType name) => some (.unknownType name)
  | _ => none

private theorem Diagnostic.not_isUndefined_of_naming? {diagnostic : Diagnostic}
    (h : diagnostic.naming? = none) :
    diagnostic.isUndefined = false := by
  unfold isUndefined
  split
  · rename_i hcause
    rw [naming?, hcause] at h
    cases h
  · rfl

/-- The finding is about the arguments of a call. -/
def Finding.isOfCall : Finding → Bool
  | .arityMismatch _ _ _ _ | .argumentTypeMismatch _ _ _ _ => true
  | _ => false

namespace Signature

private theorem isOfCall_typeProblems (signature : Signature) (table : SymbolTable) (rank : Nat)
    (arguments : List CallArgument) : ∀ diagnostic ∈ signature.typeProblems table rank arguments,
      ∃ finding, diagnostic.cause = .semantic finding ∧ finding.isOfCall = true := by
  induction arguments generalizing rank with
  | nil => exact nofun
  | cons argument rest ih =>
    rw [typeProblems]
    split
    · exact ih rank
    refine List.forall_mem_append.mpr ⟨?_, ih _⟩
    intro diagnostic hmem
    obtain ⟨entry, _, hproblem⟩ := Option.bind_eq_some_iff.mp (Option.mem_toList.mp hmem)
    unfold typeProblem? at hproblem
    split at hproblem
    · split at hproblem
      · cases hproblem
      · cases hproblem
        exact ⟨_, rfl, rfl⟩
    · cases hproblem

/-- Checking a call finds fault with its arguments only. -/
theorem isOfCall_check (signature : Signature) (table : SymbolTable) (site : Site)
    (arguments : List CallArgument) : ∀ diagnostic ∈ signature.check table site arguments,
      ∃ finding, diagnostic.cause = .semantic finding ∧ finding.isOfCall = true := by
  unfold check
  split
  · rename_i finding hproblem
    simp only [arityProblem?] at hproblem
    intro diagnostic hmem
    rw [List.mem_singleton.mp hmem]
    split at hproblem
    · cases hproblem
    · split at hproblem
      · cases hproblem
        exact ⟨_, rfl, rfl⟩
      · cases hproblem
  · exact signature.isOfCall_typeProblems table 0 arguments

theorem naming?_check (signature : Signature) (table : SymbolTable) (site : Site)
    (arguments : List CallArgument) :
    ∀ diagnostic ∈ signature.check table site arguments, diagnostic.naming? = none := by
  intro diagnostic hmem
  obtain ⟨finding, hcause, hcall⟩ := signature.isOfCall_check table site arguments diagnostic hmem
  rw [Diagnostic.naming?, hcause]
  cases finding <;> first | rfl | cases hcall

theorem not_isUndefined_check (signature : Signature) (table : SymbolTable) (site : Site)
    (arguments : List CallArgument) :
    ∀ diagnostic ∈ signature.check table site arguments, diagnostic.isUndefined = false :=
  fun diagnostic hmem =>
    diagnostic.not_isUndefined_of_naming? (signature.naming?_check table site arguments _ hmem)

end Signature

namespace Inference

open Text (LineIndex)

/-- Where nothing is open, closing a scope leaves the table as it is. -/
@[simp] theorem State.table_close (state : State) (line : Nat) :
    (state.close line).table = state.table.step (.pop line) := by
  cases hpop : state.table.pop line <;> simp [close, SymbolTable.step, hpop]

theorem run_resolve (site : Site) (state : State) :
    ((resolve site).run state).2 = state.use site := rfl

theorem run_bind {α β : Type} (first : Inference α) (next : α → Inference β) (state : State) :
    (first >>= next).run state = (next (first.run state).1).run (first.run state).2 := rfl

theorem run_within (name : String) (opened closed : Nat) (body : Inference Unit) (state : State) :
    ((within name opened closed body).run state).2 =
      (body.run { state with table := state.table.push name opened }).2.close closed := rfl

theorem run_isolated (name : String) (line : Nat) (body : Inference Unit) (state : State) :
    ((isolated name line body).run state).2 =
      let closed := (body.run { state with table := state.table.push name line }).2.close line
      { closed with table := closed.table.seek state.table.position } := rfl

/-- The lines that a walk keeps to. -/
inductive Region
  | anywhere
  | between (first last : Nat)

namespace Region

def Has : Region → Nat → Prop
  | anywhere, _ => True
  | between first last, line => first ≤ line ∧ line ≤ last

/-- From the position some line of the region is the next one to be read. -/
def Sees : Region → Nat → Prop
  | anywhere, _ => True
  | between first _, position => first ≤ position + 1

/-- A scope that is opened and closed on the two lines lies in the region. -/
def Holds : Region → Nat → Nat → Prop
  | anywhere, _, _ => True
  | between first last, opened, closed => first ≤ opened ∧ opened ≤ closed ∧ closed ≤ last

/-- The region of a scope that lies in the region. -/
def narrow : Region → Nat → Nat → Region
  | anywhere, _, _ => anywhere
  | between _ _, opened, closed => between opened closed

theorem anywhere_has (line : Nat) : anywhere.Has line := trivial

variable {region : Region}

theorem Holds.has {opened closed : Nat} (h : region.Holds opened closed) : region.Has opened := by
  cases region with
  | anywhere => trivial
  | between first last => exact ⟨h.1, Nat.le_trans h.2.1 h.2.2⟩

theorem Has.holds {line : Nat} (h : region.Has line) : region.Holds line line := by
  cases region with
  | anywhere => trivial
  | between first last => exact ⟨h.1, Nat.le_refl line, h.2⟩

theorem Has.sees {line : Nat} (h : region.Has line) : region.Sees line := by
  cases region with
  | anywhere => trivial
  | between first last => exact Nat.le_succ_of_le h.1

private theorem Has.sees_above {line : Nat} (h : region.Has line) : region.Sees (line - 1) := by
  cases region with
  | anywhere => trivial
  | between first last =>
    obtain ⟨hfirst, _⟩ := h
    show first ≤ line - 1 + 1
    omega

theorem Sees.mono {position later : Nat} (h : region.Sees position) (hle : position ≤ later) :
    region.Sees later := by
  cases region with
  | anywhere => trivial
  | between first last => exact Nat.le_trans h (Nat.succ_le_succ hle)

theorem Holds.narrow_has {opened closed : Nat} (h : region.Holds opened closed) :
    (region.narrow opened closed).Has opened := by
  cases region with
  | anywhere => trivial
  | between first last => exact ⟨Nat.le_refl opened, h.2.1⟩

end Region

/-- The operation binds a name on a line of the region, or goes to where one of its lines is read. -/
def Region.Allows (region : Region) (operation : SymbolTable.Operation) : Prop :=
  (∃ binding, operation = .define binding ∧ region.Has binding.line) ∨
    ∃ line, operation = .seek line ∧ region.Sees line

/-- The later table is made of the table without opening or closing a scope. -/
def Region.Binds (region : Region) (table later : SymbolTable) : Prop :=
  ∃ operations, (∀ operation ∈ operations, region.Allows operation) ∧ later = table.run operations

/-- The part of a walk is put together from steps that keep to the region. -/
inductive Walk : Region → {α : Type} → Inference α → Prop
  | pure {region : Region} {α : Type} (value : α) : Walk region (pure value)
  | bind {region : Region} {α β : Type} {first : Inference α} {next : α → Inference β}
      (hfirst : Walk region first) (hnext : ∀ value, Walk region (next value)) :
      Walk region (first >>= next)
  | table {region : Region} : Walk region table
  | change {region : Region} {f : SymbolTable → SymbolTable}
      (h : ∀ table, region.Binds table (f table)) : Walk region (modifyTable f)
  | report {region : Region} {found : List Diagnostic}
      (h : ∀ diagnostic ∈ found, diagnostic.isUndefined = false) : Walk region (report found)
  | track {region : Region} (f : AssignmentTracker → AssignmentTracker) : Walk region (track f)
  | finish {region : Region} : Walk region finish
  | resolve {region : Region} (site : Site) : Walk region (resolve site)
  | within {region : Region} {name : String} {opened closed : Nat} {body : Inference Unit}
      (h : region.Holds opened closed) (hbody : Walk (region.narrow opened closed) body) :
      Walk region (within name opened closed body)
  | isolated {region : Region} {name : String} {line : Nat} {body : Inference Unit}
      (h : region.Has line) (hbody : Walk (region.narrow line line) body) :
      Walk region (isolated name line body)

namespace Region.Binds

variable {region : Region} {line : Nat}

theorem refl (table : SymbolTable) : region.Binds table table := ⟨[], nofun, rfl⟩

theorem trans {table later last : SymbolTable} (h : region.Binds table later)
    (hlast : region.Binds later last) : region.Binds table last := by
  obtain ⟨operations, hallowed, rfl⟩ := h
  obtain ⟨more, hmore, rfl⟩ := hlast
  exact ⟨operations ++ more, List.forall_mem_append.mpr ⟨hallowed, hmore⟩,
    (SymbolTable.run_append table operations more).symm⟩

theorem seek (h : region.Sees line) (table : SymbolTable) : region.Binds table (table.seek line) :=
  ⟨[.seek line], List.forall_mem_singleton.mpr (.inr ⟨line, rfl, h⟩), rfl⟩

theorem reach (h : region.Sees line) (table : SymbolTable) : region.Binds table (table.reach line) :=
  seek (h.mono (Nat.le_max_right _ _)) table

theorem define (table : SymbolTable) {binding : Binding} (h : region.Has binding.line) :
    region.Binds table (table.define binding) :=
  ⟨[.define binding], List.forall_mem_singleton.mpr (.inl ⟨binding, rfl, h⟩), rfl⟩

theorem importModules (h : region.Has line) (table : SymbolTable) (items : List Ast.ImportAlias) :
    region.Binds table (table.importModules line items) := by
  induction items generalizing table with
  | nil => exact refl table
  | cons item rest ih =>
    rw [SymbolTable.importModules]
    split
    · exact (define table h).trans (ih _)
    · exact ih table

theorem importNames (h : region.Has line) (table : SymbolTable) (items : List Ast.ImportAlias) :
    region.Binds table (table.importNames line items) := by
  induction items generalizing table with
  | nil => exact refl table
  | cons item rest ih =>
    rw [SymbolTable.importNames]
    split
    · exact (define table h).trans (ih _)
    · exact ih table

theorem defineImports (h : region.Has line) (table : SymbolTable) (statement : Ast.Statement) :
    region.Binds table (table.defineImports line statement) := by
  unfold SymbolTable.defineImports
  split
  · exact importModules h table _
  · split
    · exact refl table
    · exact importNames h table _
  · exact refl table

/-- What neither opens nor closes a scope leaves the open scopes as they are. -/
theorem inner {table later : SymbolTable} (h : region.Binds table later) :
    later.inner = table.inner := by
  obtain ⟨operations, hallowed, rfl⟩ := h
  induction operations generalizing table with
  | nil => rfl
  | cons operation rest ih =>
    obtain ⟨hfirst, hrest⟩ := List.forall_mem_cons.mp hallowed
    have hstep : (table.step operation).inner = table.inner := by
      rcases hfirst with ⟨binding, rfl, _⟩ | ⟨position, rfl, _⟩ <;> rfl
    exact (ih hrest).trans hstep

theorem length_scopes {table later : SymbolTable} (h : region.Binds table later) :
    later.scopes.length = table.scopes.length := by
  obtain ⟨operations, hallowed, rfl⟩ := h
  induction operations generalizing table with
  | nil => rfl
  | cons operation rest ih =>
    obtain ⟨hfirst, hrest⟩ := List.forall_mem_cons.mp hallowed
    have hstep : (table.step operation).scopes.length = table.scopes.length := by
      rcases hfirst with ⟨binding, rfl, _⟩ | ⟨position, rfl, _⟩
      · exact List.length_modify _ _ _
      · rfl
    exact (ih hrest).trans hstep

end Region.Binds

section Parts

variable {region : Region}

theorem walk_enter {line : Nat} (h : region.Has line) : Walk region (enter line) :=
  .change fun table => Region.Binds.seek h.sees_above table

theorem walk_forM {α : Type} {f : α → Inference PUnit} {items : List α}
    (h : ∀ item ∈ items, Walk region (f item)) : Walk region (items.forM f) := by
  induction items with
  | nil => exact .pure _
  | cons item rest ih =>
    obtain ⟨hitem, hrest⟩ := List.forall_mem_cons.mp h
    exact .bind hitem fun _ => ih hrest

variable {line : Nat}

theorem walk_define (h : region.Has line) (name : String) (type : SymbolType) :
    Walk region (define name type line) := .change fun table => Region.Binds.define table h

theorem walk_defineAll (h : region.Has line) (names : List String) (type : SymbolType) :
    Walk region (defineAll names type line) := walk_forM fun name _ => walk_define h name type

theorem walk_defineTarget (h : region.Has line) (target : Ast.Expr) (type : SymbolType) :
    Walk region (defineTarget target type line) := walk_defineAll h _ type

end Parts

end Inference

end QuantumScript
