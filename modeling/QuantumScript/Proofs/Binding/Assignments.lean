import QuantumScript.Inference.Statements
import QuantumScript.Proofs.Walking.Expressions
/-!
# Walks of assignments

The targets of an assignment are walked before its value. The names in a list of targets are bound on
the way, and a target that does not show what it is binds the text of its first token when the statement
ends. Nothing else is bound in the scope that the statement stands in.
-/

namespace QuantumScript

namespace Ast.Expr

/-- The names that the target binds at once, before the value is walked: those of a list of targets. -/
def listed (target : Expr) : List Leaf :=
  match target with
  | .expressionList _ _ | .list _ _ | .parenthesized _ _ => target.boundLeaves
  | _ => []

/-- Walking the target shows that it is no plain name: it is a list of targets with a name in it, or
starts at a name. -/
def isMarked (target : Expr) : Bool :=
  match target with
  | .name _ => false
  | .expressionList _ _ | .list _ _ | .parenthesized _ _ => !target.boundLeaves.isEmpty
  | _ => target.startsAtName

/-- What the target binds when the statement ends: the text of its first token, unless it is marked. -/
def late? (index : Text.LineIndex) (target : Expr) : Option String :=
  if target.isMarked then none else some (index.firstSite target.extent).text

end Ast.Expr

/-- Bindings of names to one type on one line. -/
def Binding.all (names : List String) (type : SymbolType) (line : Nat) : List Binding :=
  names.map fun name => ⟨name, type, line⟩

/-- The bindings that are made while the targets are walked. -/
def Binding.listed (line : Nat) (targets : List Ast.Expr) : List Binding :=
  all ((targets.flatMap Ast.Expr.listed).map Ast.Leaf.text) .any line

namespace Inference

open SymbolTable
open Text (LineIndex)

theorem run_defineAll (names : List String) (type : SymbolType) (line : Nat) (state : State) :
    ((defineAll names type line).run state).2 =
      { state with table := (Binding.all names type line).foldl SymbolTable.define state.table } := by
  induction names generalizing state with
  | nil => rfl
  | cons name rest ih => exact ih { state with table := state.table.define ⟨name, type, line⟩ }

section Targets

variable (index : LineIndex) (line : Nat)

private theorem run_target (e : Ast.Expr) (state : State) :
    let later := ((target index line e).run state).2
    Inside line ((Binding.listed line [e]).foldl SymbolTable.define state.table) [] later.table ∧
      state.tracker.Marks e.isMarked later.tracker := by
  have hlist (items : List Ast.Leaf) (site? : Option Site)
      (hsite : items.head?.map index.leafSite = site?) :
      let begun := { state with tracker := site?.elim state.tracker state.tracker.variableAt }
      let later := ((defineAll (items.map Ast.Leaf.text) .any line).run begun).2
      Inside line ((Binding.all (items.map Ast.Leaf.text) .any line).foldl SymbolTable.define state.table) []
          later.table ∧ state.tracker.Marks (!items.isEmpty) later.tracker := by
    subst hsite
    cases items with
    | nil => exact ⟨Inside.refl line _, AssignmentTracker.Marks.refl _⟩
    | cons leaf rest =>
      have hrun := run_defineAll ((leaf :: rest).map Ast.Leaf.text) .any line
        { state with tracker := state.tracker.variableAt (index.leafSite leaf) }
      constructor
      · exact (congrArg State.table hrun).symm ▸ Inside.refl line _
      · exact (congrArg State.tracker hrun).symm ▸ AssignmentTracker.Marks.variableAt _ _
  have hother (e : Ast.Expr) : let later := ((do
        let _ ← expr index line true e : Inference Unit).run state).2
      Inside line state.table [] later.table ∧ state.tracker.Marks e.startsAtName later.tracker := by
    have hlocal : Local line false (true && e.startsAtName) (expr index line true e) :=
      local_expr index true e
    have hstays := hlocal.stays_self state
    exact ⟨hstays.table, hstays.tracker⟩
  cases e with
  | name part => exact ⟨Inside.refl line _, AssignmentTracker.Marks.refl _⟩
  | expressionList extent items | list extent items | parenthesized extent inner =>
    simp only [Binding.listed, List.flatMap_cons, List.flatMap_nil, List.append_nil]
    unfold target
    dsimp only
    split
    · rename_i leaf hhead
      exact hlist _ (some (index.leafSite leaf)) (congrArg (Option.map index.leafSite) hhead)
    · rename_i hhead
      exact hlist _ none (congrArg (Option.map index.leafSite) hhead)
  | _ => exact hother _

/-- The targets bind the names listed in them. Their sides are kept with what they bind when the
statement ends. -/
theorem run_targets (items : List Ast.Expr) (state : State) :
    let later := ((targets index line items).run state).2
    Inside line ((Binding.listed line items).foldl SymbolTable.define state.table) [] later.table ∧
      ∃ sides : List Side,
        later.tracker = ⟨state.tracker.pending, sides.reverse ++ state.tracker.targets⟩ ∧
          sides.filterMap Side.plainName? = items.filterMap (Ast.Expr.late? index) := by
  induction items generalizing state with
  | nil => exact ⟨Inside.refl line _, [], rfl, rfl⟩
  | cons first rest ih =>
    -- The first target, then its side put away, then the others.
    let begun : State := { state with tracker := state.tracker.begin (index.firstSite first.extent) }
    let walked := ((target index line first).run begun).2
    let assigned : State := { walked with tracker := walked.tracker.assign }
    obtain ⟨hinside, f, hmodified, hmarks⟩ := run_target index line first begun
    obtain ⟨hrest, sides, htracker, hnames⟩ := ih assigned
    have hside := hmarks ⟨index.firstSite first.extent, none⟩
    have hassigned : assigned.tracker =
        ⟨state.tracker.pending, f ⟨index.firstSite first.extent, none⟩ :: state.tracker.targets⟩ := by
      have hwalked : walked.tracker = begun.tracker.modifyLast f := hmodified
      simp only [assigned, hwalked]
      rfl
    refine ⟨?_, f ⟨index.firstSite first.extent, none⟩ :: sides, ?_, ?_⟩
    · have hboth := (hinside.foldl_define (Binding.listed line rest)).trans hrest
      have hlisted : Binding.listed line (first :: rest) =
          Binding.listed line [first] ++ Binding.listed line rest := by
        simp [Binding.listed, Binding.all]
      rw [hlisted, List.foldl_append]
      exact hboth
    · rw [hassigned] at htracker
      rw [List.reverse_cons, List.append_assoc]
      exact htracker
    · have hplain : (f ⟨index.firstSite first.extent, none⟩).plainName? = first.late? index := by
        obtain ⟨hfirst, hchain⟩ := hside
        unfold Side.plainName? Ast.Expr.late?
        rw [Option.isSome_none, Bool.or_false] at hchain
        cases hmarked : first.isMarked with
        | true =>
          obtain ⟨chain, hsome⟩ := Option.isSome_iff_exists.mp (hchain.trans hmarked)
          rw [hsome]
          rfl
        | false =>
          have hnone := Option.not_isSome_iff_eq_none.mp (Bool.eq_false_iff.mp (hchain.trans hmarked))
          rw [hnone, hfirst]
          rfl
      rw [List.filterMap_cons, List.filterMap_cons, hplain, hnames]

end Targets

/-- The state in which the walk of the value of an assignment begins: the targets have been walked. -/
def State.atValue (index : LineIndex) (line : Nat) (left : List Ast.Expr) (value : Ast.Expr)
    (state : State) : State :=
  let walked := ((targets index line left).run { state with table := state.table.seek (line - 1) }).2
  { walked with tracker := walked.tracker.begin (index.firstSite value.extent) }

section Whole

variable (index : LineIndex) (owner : Option ClassType) (extent : Ast.Extent) (left : List Ast.Expr)
  (value : Ast.Expr) (hint : Option Ast.Holder) (state : State)

/-- The state after the value of an assignment has been walked. -/
def State.pastValue : State :=
  let line := index.firstLine extent
  ((expr index line true value).run (state.atValue index line left value)).2

/-- The names that are bound when the statement ends: those left over from before, if there are any, and
those of the targets. -/
def State.lateNames : List String :=
  state.tracker.targets.reverse.filterMap Side.plainName? ++ left.filterMap (Ast.Expr.late? index)

private theorem finish_pastValue :
    ∃ finished, (state.pastValue index extent left value).tracker.finish.1 = some finished ∧
      finished.targets.filterMap Side.plainName? = state.lateNames index left := by
  obtain ⟨_, sides, htracker, hnames⟩ := run_targets index (index.firstLine extent) left
    { state with table := state.table.seek (index.firstLine extent - 1) }
  have hlocal : Local (index.firstLine extent) false (true && value.startsAtName)
      (expr index (index.firstLine extent) true value) := local_expr index true value
  have hstays := hlocal.stays_self (state.atValue index (index.firstLine extent) left value)
  obtain ⟨f, hmodified, _⟩ := hstays.tracker
  have hbegun : (state.atValue index (index.firstLine extent) left value).tracker =
      ⟨⟨index.firstSite value.extent, none⟩ :: state.tracker.pending,
        sides.reverse ++ state.tracker.targets⟩ := by
    simp only [State.atValue, AssignmentTracker.begin, htracker]
  have hpast : (state.pastValue index extent left value).tracker =
      ⟨f ⟨index.firstSite value.extent, none⟩ :: state.tracker.pending,
        sides.reverse ++ state.tracker.targets⟩ := by
    rw [State.pastValue, hmodified, hbegun]
    rfl
  refine ⟨⟨state.tracker.targets.reverse ++ sides, f ⟨index.firstSite value.extent, none⟩⟩, ?_, ?_⟩
  · rw [hpast]
    simp [AssignmentTracker.finish]
  · rw [List.filterMap_append, hnames, State.lateNames]

/-- When an assignment ends, the names that are left are bound to the type of the value. -/
theorem run_assignment_type :
    let line := index.firstLine extent
    let known := (hint.bind Ast.Holder.typeName?).bind (state.table.seek (line - 1)).resolveType?
    let walked := ((expr index line true value).run (state.atValue index line left value)).1
    let past := state.pastValue index extent left value
    ∃ side, past.tracker.pending.head? = some side ∧
      ((statement index owner
          (.expressionStatement extent (left ++ [value]) true false hint)).run state).2 =
        { past with
          tracker := .empty
          table := (Binding.all (state.lateNames index left) (assignedType past.table known side walked)
            line).foldl SymbolTable.define past.table } := by
  intro line known walked past
  obtain ⟨finished, hfinish, hnames⟩ := finish_pastValue index extent left value state
  obtain ⟨side, hside, rfl⟩ := Option.map_eq_some_iff.mp hfinish
  refine ⟨side, hside, ?_⟩
  have hlast : (left ++ [value]).getLast? = some value := List.getLast?_concat
  have hfirst : (left ++ [value]).dropLast = left := List.dropLast_concat
  rw [statement]
  simp only [expressions, hlast, hfirst, Bool.false_eq_true, if_false, if_true]
  rw [run_bind, run_bind, assignment, run_bind, run_bind, run_bind, run_bind]
  split
  · rename_i hnone
    cases hnone.symm.trans hfinish
  · rename_i other hsome
    obtain rfl := Option.some.inj (hsome.symm.trans hfinish)
    rw [← hnames, run_bind]
    exact run_defineAll _ _ _ { past with tracker := .empty }

/-- When an assignment ends, the names that are left are bound to one type. -/
theorem run_assignment :
    ∃ type, ((statement index owner
        (.expressionStatement extent (left ++ [value]) true false hint)).run state).2 =
      { state.pastValue index extent left value with
        tracker := .empty
        table := (Binding.all (state.lateNames index left) type
          (index.firstLine extent)).foldl SymbolTable.define
            (state.pastValue index extent left value).table } := by
  obtain ⟨_, _, hrun⟩ := run_assignment_type index owner extent left value hint state
  exact ⟨_, hrun⟩

end Whole

end Inference

end QuantumScript
