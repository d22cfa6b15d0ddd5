import QuantumScript.Proofs.Ordering.Twins
import QuantumScript.Proofs.Typing.Values
import QuantumScript.Proofs.Walking.Invariants
/-!
# Replayed accesses

While the value of an assignment is walked, the accesses that it is made of are recorded. When the
statement ends the record is replayed, and the type that it comes to goes before the type of the walk.
The record tells of the variable and of each member whether it is subscripted, but not how often, and
not where it is called. So the two types agree only as long as this tells all.
-/

namespace QuantumScript

namespace Ast

/-- The variable that a value starts at, with the trailers that follow it. -/
def Expr.path? : Expr → Option (Leaf × List Trailer)
  | .name part => part.ident.map fun leaf => (leaf, [])
  | .chain _ (some (.name part)) trailers => part.ident.map fun leaf => (leaf, trailers)
  | .parenthesized _ (some inner) => inner.path?
  | _ => none

/-- The record of the trailers tells all of them. The value so far is the one that the record stands for
if it is settled. If it is callable, then calling it comes to the one that the record stands for. It is
fresh if the last link of the record is not subscripted yet. -/
def Trailer.lossless (settled callable fresh : Bool) : List Trailer → Bool
  | [] => settled
  | .attribute _ name :: rest =>
    settled && (name.bind Name.ident).isSome && lossless true true true rest
  | .arguments _ _ :: rest => callable && lossless true false fresh rest
  | .subscripts _ _ :: rest => settled && fresh && lossless true false false rest

end Ast

namespace SymbolType

/-- Naming a function stands for calling it, so a function has to be called. -/
def isSettled : SymbolType → Bool
  | .function _ => false
  | _ => true

/-- Calling a value of primitive type comes to nothing that is known. -/
def isCallable : SymbolType → Bool
  | .primitive kind => kind = .object
  | _ => true

end SymbolType

/-- The record of the value tells all of it. -/
def Ast.Expr.Replays (table : SymbolTable) (value : Ast.Expr) : Prop :=
  ∀ leaf trailers record, value.path? = some (leaf, trailers) → table.resolve? leaf.text = some record →
    Ast.Trailer.lossless record.binding.type.isSettled record.binding.type.isCallable true trailers = true

namespace SymbolTable

/-- The type of the result of a member, if it is known. -/
def memberType? (table : SymbolTable) (name : String) (receiver : SymbolType) : Option SymbolType :=
  match table.member receiver name with
  | .found result => result
  | .missing | .unknown => none

end SymbolTable

open Text (LineIndex)

namespace AccessChain

/-- The chain as far as its type depends on it. -/
def bare (chain : AccessChain) : AccessChain := { chain with arguments := [] }

/-- The last link is subscripted. -/
def lastIndexed (chain : AccessChain) : Bool :=
  match chain.members.getLast? with
  | some access => access.indexed
  | none => chain.indexed

/-- What is recorded of trailers. -/
def follow (index : LineIndex) (chain : AccessChain) : List Ast.Trailer → AccessChain
  | [] => chain
  | .attribute _ name :: rest =>
    match name.bind Ast.Name.ident with
    | none => chain.follow index rest
    | some leaf => (chain.access (index.leafSite leaf)).follow index rest
  | .arguments _ _ :: rest => chain.follow index rest
  | .subscripts _ _ :: rest => chain.index.follow index rest

@[simp] theorem bare_index (chain : AccessChain) : chain.index.bare = chain.bare.index := by
  unfold index bare
  split <;> rfl

@[simp] theorem root_index (chain : AccessChain) : chain.index.root = chain.root := by
  unfold index
  split <;> rfl

private theorem root_follow (index : LineIndex) (chain : AccessChain) (trailers : List Ast.Trailer) :
    (chain.follow index trailers).root = chain.root := by
  induction trailers generalizing chain with
  | nil => rfl
  | cons trailer rest ih =>
    cases trailer with
    | «attribute» _ name =>
      rw [follow]
      split
      · exact ih chain
      · exact ih _
    | arguments _ _ => exact ih chain
    | subscripts _ _ => exact (ih _).trans chain.root_index

section Resolving

variable (table : SymbolTable)

theorem elementIf_false : elementIf table false = some := rfl

theorem elementIf_true : elementIf table true = table.elementType? := rfl

theorem resolveMembers_append (type : SymbolType) (members more : List MemberAccess) :
    resolveMembers table type (members ++ more) =
      (resolveMembers table type members).bind fun type => resolveMembers table type more := by
  induction members generalizing type with
  | nil => rfl
  | cons access rest ih =>
    rw [List.cons_append, resolveMembers, resolveMembers]
    split
    · rw [Option.bind_assoc]
      exact congrArg _ (funext ih)
    · rfl

theorem resolveMembers_singleton (type : SymbolType) (access : MemberAccess) :
    resolveMembers table type [access] =
      (table.memberType? access.site.text type).bind (elementIf table access.indexed) := by
  rw [resolveMembers, SymbolTable.memberType?]
  cases table.member type access.site.text with
  | found result =>
    cases result with
    | none => rfl
    | some result => exact Option.bind_fun_some _
  | missing | unknown => rfl

private theorem resolve?_access (chain : AccessChain) (site : Site) :
    (chain.access site).resolve? table = (chain.resolve? table).bind (table.memberType? site.text) := by
  simp only [resolve?, access, resolveMembers_append, resolveMembers_singleton, elementIf_false,
    Option.bind_assoc, Option.bind_fun_some]

private theorem resolve?_index {chain : AccessChain} (hfresh : chain.lastIndexed = false) :
    chain.index.resolve? table = (chain.resolve? table).bind table.elementType? := by
  rcases chain.members_cases with hnil | ⟨members, last, hlast⟩
  · have hindexed : chain.indexed = false := by
      rwa [lastIndexed, hnil] at hfresh
    rw [index_of_nil hnil]
    simp only [resolve?, hnil, hindexed, elementIf_false, elementIf_true, resolveMembers,
      Option.bind_assoc, Option.bind_fun_some]
  · have hindexed : last.indexed = false := by
      rwa [lastIndexed, hlast, List.getLast?_concat] at hfresh
    rw [index_of_append hlast]
    simp only [resolve?, hlast, resolveMembers_append, resolveMembers_singleton, hindexed,
      elementIf_false, elementIf_true, Option.bind_assoc, Option.bind_fun_some]

end Resolving

section Tables

variable {table other : SymbolTable} (h : SymbolTable.Answers table other)
include h

private theorem elementIf_congr (indexed : Bool) (type : SymbolType) :
    elementIf table indexed type = elementIf other indexed type := by
  rw [elementIf, elementIf, h.elementType?]

private theorem resolveMembers_congr (type : SymbolType) (members : List MemberAccess) :
    resolveMembers table type members = resolveMembers other type members := by
  induction members generalizing type with
  | nil => rfl
  | cons access rest ih =>
    rw [resolveMembers, resolveMembers, h.member]
    simp only [elementIf_congr h, ih]

private theorem resolve?_congr (chain : AccessChain) : chain.resolve? table = chain.resolve? other := by
  simp only [resolve?, h.resolve?, h.valueType?, elementIf_congr h, resolveMembers_congr h]

end Tables

end AccessChain

namespace Inference

open SymbolTable

/-- The two types mean the same where what is not known may be anything. -/
def Agree (replayed walked : Option SymbolType) : Prop := replayed.getD .any = walked.getD .any

namespace Agree

variable {replayed walked : Option SymbolType}

theorem bind (h : Agree replayed walked) {f : SymbolType → Option SymbolType}
    (hany : (f .any).getD .any = .any) : Agree (replayed.bind f) (walked.bind f) := by
  unfold Agree at h ⊢
  cases replayed with
  | none =>
    cases walked with
    | none => rfl
    | some type =>
      obtain rfl : SymbolType.any = type := h
      exact hany.symm
  | some type =>
    cases walked with
    | none =>
      obtain rfl : type = SymbolType.any := h
      exact hany
    | some other =>
      obtain rfl : type = other := h
      rfl

private theorem getD_or (h : Agree replayed walked) : (replayed.or walked).getD .any = walked.getD .any := by
  cases replayed with
  | none => rfl
  | some type => exact h

private theorem class_of_replayed (h : Agree replayed walked) {own : ClassType}
    (hreplayed : replayed = some (.classType own)) : walked = some (.classType own) := by
  subst hreplayed
  cases walked with
  | none => cases h
  | some type => exact congrArg some (Eq.symm h)

end Agree

section Access

variable (table : SymbolTable) (receiver : Option SymbolType) (site : Site)

private theorem Value.type_access :
    (Value.access table receiver site).type = receiver.bind (table.memberType? site.text) := by
  cases receiver with
  | none => rfl
  | some receiver =>
    rw [Value.access, Option.bind_some, SymbolTable.memberType?]
    cases table.member receiver site.text with
    | found result =>
      dsimp only
      split <;> rfl
    | missing | unknown => rfl

private theorem Callee.result?_access :
    (Value.access table receiver site).callee.result? table =
      receiver.bind (table.memberType? site.text) := by
  cases receiver with
  | none => rfl
  | some receiver =>
    cases receiver with
    | classType type =>
      simp only [Value.access, SymbolTable.memberType?, SymbolTable.member, SymbolType.class?,
        Option.bind_some]
      cases type.member? site.text <;> rfl
    | _ => rfl

end Access

private theorem agree_follow (table : SymbolTable) (index : LineIndex) (settled callable fresh : Bool)
    {chain : AccessChain} {value : Value}
    (hsettled : settled = true → Agree (chain.resolve? table) value.type)
    (hcallable : callable = true → Agree (chain.resolve? table) (value.callee.result? table))
    (hfresh : fresh = true → chain.lastIndexed = false) (trailers : List Ast.Trailer)
    (hlossless : Ast.Trailer.lossless settled callable fresh trailers = true) :
    Agree ((chain.follow index trailers).resolve? table) (value.through index table trailers) := by
  induction trailers generalizing settled callable fresh chain value with
  | nil => exact hsettled hlossless
  | cons trailer rest ih =>
    cases trailer with
    | «attribute» _ name =>
      simp only [Ast.Trailer.lossless, Bool.and_eq_true] at hlossless
      obtain ⟨⟨hnow, hnamed⟩, hrest⟩ := hlossless
      obtain ⟨leaf, hleaf⟩ := Option.isSome_iff_exists.mp hnamed
      rw [AccessChain.follow, Value.through, hleaf]
      -- Nothing is known of the members of anything.
      have hmember : Agree ((chain.access (index.leafSite leaf)).resolve? table)
          (value.type.bind (table.memberType? leaf.text)) := by
        rw [AccessChain.resolve?_access]
        exact (hsettled hnow).bind rfl
      refine ih true true true (fun _ => ?_) (fun _ => ?_) (fun _ => ?_) hrest
      · rwa [Value.type_access]
      · rwa [Callee.result?_access]
      · rw [AccessChain.lastIndexed, AccessChain.access, List.getLast?_concat]
    | arguments _ _ =>
      simp only [Ast.Trailer.lossless, Bool.and_eq_true] at hlossless
      obtain ⟨hnow, hrest⟩ := hlossless
      exact ih true false fresh (fun _ => hcallable hnow) (absurd · Bool.false_ne_true) hfresh hrest
    | subscripts _ _ =>
      simp only [Ast.Trailer.lossless, Bool.and_eq_true] at hlossless
      obtain ⟨⟨hnow, hunused⟩, hrest⟩ := hlossless
      refine ih true false false (fun _ => ?_) (absurd · Bool.false_ne_true) (absurd · Bool.false_ne_true)
        hrest
      rw [AccessChain.resolve?_index table (hfresh hunused)]
      exact (hsettled hnow).bind rfl

private theorem resolve?_start (table : SymbolTable) (site : Site) :
    (AccessChain.start site).resolve? table =
      (table.resolve? site.text).bind fun record => table.valueType? record.binding.type := by
  simp only [AccessChain.resolve?, AccessChain.start, AccessChain.elementIf_false,
    AccessChain.resolveMembers, Option.bind_fun_some]

private theorem agree_start (table : SymbolTable) (index : LineIndex) {value : Ast.Expr}
    (hreplays : value.Replays table) {leaf : Ast.Leaf} {trailers : List Ast.Trailer}
    (hpath : value.path? = some (leaf, trailers)) :
    let site := index.leafSite leaf
    let named := (table.resolve? site.text).map fun record => record.binding.type
    Agree (((AccessChain.start site).follow index trailers).resolve? table)
      ((Value.ofName named site).through index table trailers) := by
  intro site named
  have hstart := resolve?_start table site
  cases hrecord : table.resolve? site.text with
  | none =>
    have hnone : (Value.ofName named site) = .ofType none := by
      simp only [named, hrecord, Option.map_none]
      rfl
    have hroot : table.resolve? ((AccessChain.start site).follow index trailers).root.text = none := by
      rw [AccessChain.root_follow]
      exact hrecord
    rw [hnone, Value.through_none, AccessChain.resolve?, hroot]
    rfl
  | some record =>
    have hlossless := hreplays leaf trailers record hpath hrecord
    rw [hrecord, Option.bind_some] at hstart
    have hnamed : named = some record.binding.type := by
      simp only [named, hrecord, Option.map_some]
    rw [hnamed]
    generalize record.binding.type = type at hlossless hstart
    refine agree_follow table index _ _ _ (fun hsettled => ?_) (fun hcallable => ?_) (fun _ => rfl)
      trailers hlossless
    · rw [hstart]
      cases type with
      | function signature => cases hsettled
      | _ => rfl
    · rw [hstart]
      cases type with
      | primitive kind =>
        obtain rfl : kind = .object := of_decide_eq_true hcallable
        rfl
      | classType own => rfl
      | function signature =>
        simp only [valueType?, Value.ofName, Callee.result?]
        cases signature.returns <;> rfl

end Inference

namespace AssignmentTracker

/-- What is recorded of the side that is walked. -/
def recorded? (tracker : AssignmentTracker) : Option AccessChain :=
  (tracker.pending.head?.bind Side.chain).map AccessChain.bare

private theorem recorded?_modifyChain (tracker : AssignmentTracker) {f g : AccessChain → AccessChain}
    (h : ∀ chain : AccessChain, (f chain).bare = g chain.bare) :
    (tracker.modifyChain f).recorded? = tracker.recorded?.map g := by
  obtain ⟨pending, targets⟩ := tracker
  cases pending with
  | nil => rfl
  | cons side rest =>
    obtain ⟨first, chain⟩ := side
    cases chain with
    | none => rfl
    | some chain => exact congrArg some (h chain)

private theorem recorded?_access (tracker : AssignmentTracker) (site : Site) :
    (tracker.access site).recorded? = tracker.recorded?.map fun chain => chain.access site :=
  tracker.recorded?_modifyChain fun _ => rfl

private theorem recorded?_call (tracker : AssignmentTracker) (arguments : List CallArgument) :
    (tracker.call arguments).recorded? = tracker.recorded? :=
  have hsame (chain : AccessChain) : ({ chain with arguments } : AccessChain).bare = chain.bare := rfl
  (tracker.recorded?_modifyChain hsame).trans Option.map_id'

private theorem recorded?_indexed (tracker : AssignmentTracker) :
    tracker.indexed.recorded? = tracker.recorded?.map AccessChain.index :=
  tracker.recorded?_modifyChain AccessChain.bare_index

private theorem recorded?_variableAt {tracker : AssignmentTracker} (h : tracker.pending ≠ []) (site : Site) :
    (tracker.variableAt site).recorded? = some (.start site) := by
  obtain ⟨pending, targets⟩ := tracker
  cases pending with
  | nil => exact absurd rfl h
  | cons side rest => rfl

end AssignmentTracker

namespace Inference

open SymbolTable

/-- Watches that the tracker stays as it is. -/
def Watch.ofTracker (tracker : AssignmentTracker) : Watch :=
  ⟨fun state => state.tracker = tracker, fun _ _ => True⟩

private theorem Watch.steady_ofTracker (tracker : AssignmentTracker) : (Watch.ofTracker tracker).Steady where
  reads _ _ _ _ _ _ := trivial
  use h _ := ⟨h, id⟩
  define h _ _ := ⟨h, id⟩
  seek h _ := ⟨h, id⟩
  push h _ _ := ⟨h, id⟩
  close h line := ⟨(State.tracker_close _ line).trans h, id⟩
  check h _ _ _ _ := ⟨h, id⟩
  unknown h _ _ _ _ := ⟨h, id⟩

theorem Upholds.tracker {α : Type} {part : Inference α} {state : State} {classes : α → List ClassType}
    (h : Upholds (Watch.ofTracker state.tracker) [] classes part) :
    (part.run state).2.tracker = state.tracker := (h state rfl nofun).1.holds

section Recording

variable (index : LineIndex) (line : Nat)

private theorem recorded?_chain (value : Value) (trailers : List Ast.Trailer) (state : State) :
    ((chain index line true value trailers).run state).2.tracker.recorded? =
      state.tracker.recorded?.map fun chain => chain.follow index trailers := by
  induction trailers generalizing value state with
  | nil =>
    rw [chain]
    exact Option.map_id'.symm
  | cons trailer rest ih =>
    cases trailer with
    | «attribute» _ name =>
      rw [chain]
      simp only [AccessChain.follow]
      cases name.bind Ast.Name.ident with
      | none => exact ih _ state
      | some leaf =>
        dsimp only
        rw [run_bind, run_bind, ih, (Quiet.access _ _ _ _).2.1]
        exact (congrArg _ (state.tracker.recorded?_access _)).trans (Option.map_map _ _ _)
    | arguments _ items =>
      have hitems : ((arguments index line items).run state).2.tracker = state.tracker :=
        (upholds_arguments index (Watch.steady_ofTracker state.tracker) items).tracker
      rw [chain, run_bind, run_bind, run_bind, ih, (Quiet.call _ _ _).2.1, ← hitems]
      exact congrArg _ (AssignmentTracker.recorded?_call _ _)
    | subscripts _ items =>
      have hitems : ((subscripts index line items).run state).2.tracker = state.tracker :=
        (upholds_subscripts index (Watch.steady_ofTracker state.tracker) items).tracker
      rw [chain, run_bind, run_bind, run_bind, ih, ← hitems]
      exact (congrArg _ (AssignmentTracker.recorded?_indexed _)).trans (Option.map_map _ _ _)

private theorem recorded?_expr (e : Ast.Expr) (state : State) (hpending : state.tracker.pending ≠ [])
    (hnone : state.tracker.recorded? = none) :
    ((expr index line true e).run state).2.tracker.recorded? =
      e.path?.map fun path => (AccessChain.start (index.leafSite path.1)).follow index path.2 := by
  have hsilent (e : Ast.Expr) : ((expr index line false e).run state).2.tracker = state.tracker :=
    (upholds_expr index (Watch.steady_ofTracker state.tracker) false nofun e).tracker
  have hother {e : Ast.Expr} (hsame : expr index line true e = expr index line false e)
      (hpath : e.path? = none) : ((expr index line true e).run state).2.tracker.recorded? =
        e.path?.map fun path => (AccessChain.start (index.leafSite path.1)).follow index path.2 := by
    rw [hsame, hsilent, hnone, hpath]
    rfl
  match e with
  | .name part =>
    rw [expr, Ast.Expr.path?, run_bind, name]
    cases part.ident with
    | none => exact hnone
    | some leaf => exact AssignmentTracker.recorded?_variableAt hpending _
  | .parenthesized _ (some value) =>
    rw [expr, Ast.Expr.path?]
    exact recorded?_expr value state hpending hnone
  | .chain _ (some atom) trailers =>
    cases atom with
    | name part =>
      rw [expr, Ast.Expr.path?, run_bind, name]
      cases part.ident with
      | none => exact hnone
      | some leaf =>
        dsimp only
        rw [run_bind, run_bind]
        refine (recorded?_chain index line _ trailers _).trans ?_
        exact congrArg _ (AssignmentTracker.recorded?_variableAt hpending (index.leafSite leaf))
    | _ =>
      rw [expr, Ast.Expr.path?, run_bind]
      · refine (recorded?_chain index line _ trailers _).trans ?_
        rw [hsilent, hnone]
        rfl
      all_goals simp
  | .literal .. | .chain _ none _ | .binary .. | .parenthesized _ none | .list .. | .dictionary ..
  | .conditional .. | .expressionList .. | .lambda _ none _ | .lambda _ (some ⟨_, _⟩) _ | .yield ..
  | .comprehension .. | .unary .. =>
    exact hother (by rw [expr, expr]) rfl

private theorem run_expr_of_path {state : State} (hgrounded : state.table.Grounded) {leaf : Ast.Leaf}
    {trailers : List Ast.Trailer} (e : Ast.Expr) (hpath : e.path? = some (leaf, trailers)) :
    let site := index.leafSite leaf
    let named := (state.table.resolve? site.text).map fun record => record.binding.type
    ((expr index line true e).run state).1 =
      (Value.ofName named site).through index state.table trailers := by
  intro site named
  fun_induction Ast.Expr.path? e with
  | case1 part =>
    obtain ⟨own, hown, hboth⟩ := Option.map_eq_some_iff.mp hpath
    cases hboth
    rw [expr, name, hown, Value.through]
    rfl
  | case2 _ part =>
    obtain ⟨own, hown, hboth⟩ := Option.map_eq_some_iff.mp hpath
    cases hboth
    rw [expr, name, hown]
    exact run_chain index hgrounded true _ trailers (Inside.refl line state.table)
  | case3 _ inner ih =>
    rw [expr]
    exact ih hpath
  | case4 => cases hpath

end Recording

private theorem grounded_atValue (index : LineIndex) (line : Nat) (left : List Ast.Expr) (value : Ast.Expr)
    {state : State} (hcoherent : Coherent state.table.scopes state.table.live) :
    (state.atValue index line left value).table.Grounded := by
  have hinside := inside_atValue index line left value state
  have habove : Coherent (state.table.seek (line - 1)).scopes (state.table.seek (line - 1)).live := hcoherent
  have hbound := (coherent_foldl_define habove (Binding.listed line left)).grounded
  intro id hmem
  rw [hinside.live, List.nil_append] at hmem
  exact Nat.lt_of_lt_of_le (hbound id hmem) hinside.length_le

section Whole

variable (index : LineIndex) (owner : Option ClassType) (extent : Ast.Extent) (left : List Ast.Expr)
  (value : Ast.Expr) (state : State)

/-- The two types of an assigned value. An assignment without a hint binds the names that are left to the
type that the record of the value comes to, else to the one that the walk of the value comes to, else to
that of anything. The record is what is told of the path of the value, and replaying it sees the table
that the walk saw. If the value has no path, or if its record tells all of the path, then the type is the
one that the walk comes to, and replaying never finds a class that the walk does not find. -/
theorem assigned_type_replays (hcoherent : Coherent state.table.scopes state.table.live) :
    let line := index.firstLine extent
    let begun := state.atValue index line left value
    let walked := (expr index line true value).run begun
    let replayed := value.path?.bind fun path =>
      ((AccessChain.start (index.leafSite path.1)).follow index path.2).resolve? begun.table
    let type := (replayed.or walked.1).getD .any
    let later := ((statement index owner
      (.expressionStatement extent (left ++ [value]) true false none)).run state).2
    later.table =
        (Binding.all (state.lateNames index left) type line).foldl SymbolTable.define walked.2.table ∧
      (value.Replays begun.table → type = walked.1.getD .any ∧
        ∀ own, replayed = some (.classType own) → walked.1 = some (.classType own)) := by
  intro line begun walked replayed type later
  have hgrounded : begun.table.Grounded := grounded_atValue index line left value hcoherent
  constructor
  · obtain ⟨side, hside, hrun⟩ := run_assignment_type index owner extent left value none state
    have hlocal : Local line false (true && value.startsAtName) (expr index line true value) :=
      local_expr index true value
    have hsame : Answers walked.2.table begun.table :=
      (hlocal.stays_self begun).table.answers hgrounded
    have hrecord : side.chain.map AccessChain.bare =
        value.path?.map fun path => (AccessChain.start (index.leafSite path.1)).follow index path.2 := by
      rw [← recorded?_expr index line value begun (List.cons_ne_nil _ _) rfl]
      exact congrArg (fun head : Option Side => (head.bind Side.chain).map AccessChain.bare) hside.symm
    have hreplayed : side.chain.bind (AccessChain.resolve? walked.2.table) = replayed := by
      calc side.chain.bind (AccessChain.resolve? walked.2.table)
        _ = (side.chain.map AccessChain.bare).bind (AccessChain.resolve? walked.2.table) := by
            rw [Option.bind_map]
            rfl
        _ = (side.chain.map AccessChain.bare).bind (AccessChain.resolve? begun.table) :=
            congrArg _ (funext fun chain => chain.resolve?_congr hsame)
        _ = replayed := by
            rw [hrecord]
            exact Option.bind_map
    have htype : assignedType walked.2.table none side walked.1 = type := by
      rw [assignedType, hreplayed, Option.none_or]
    simp only [later]
    rw [hrun, ← htype]
    rfl
  · intro hreplays
    cases hpath : value.path? with
    | none =>
      have hnone : replayed = none := by
        simp only [replayed, hpath, Option.bind_none]
      refine ⟨?_, fun own hown => nomatch hnone.symm.trans hown⟩
      rw [← Option.none_or (o := walked.1), ← hnone]
    | some path =>
      have hagree : Agree replayed walked.1 := by
        simp only [replayed, walked, hpath, Option.bind_some]
        rw [run_expr_of_path index line hgrounded value hpath]
        exact agree_start begun.table index hreplays hpath
      exact ⟨hagree.getD_or, fun own => hagree.class_of_replayed⟩

end Whole

/-- Where `x` is of a class with a method `m` that returns whole numbers, the record of `y = x.m()` tells
all of the value, and `y` is bound to the type of whole numbers. -/
theorem called_member_replays :
    let index : LineIndex := .ofText "\ny=x.m()".toList
    let leaf (text : String) (start : Nat) : Ast.Leaf := ⟨.name, text, ⟨start, start + 1⟩⟩
    let extent (text : String) (start stop : Nat) : Ast.Extent :=
      ⟨⟨start, stop⟩, some (leaf text start), stop⟩
    let part (text : String) (start : Nat) : Ast.Name :=
      ⟨extent text start (start + 1), some (leaf text start)⟩
    let value : Ast.Expr := .chain (extent "x" 3 8) (some (.name (part "x" 3)))
      [.attribute (extent "." 4 6) (some (part "m" 5)), .arguments (extent "(" 6 8) []]
    let own : ClassType := ⟨"A", [⟨"m", [], some "int", false⟩]⟩
    let table := (initial false).define ⟨"x", .classType own, 1⟩
    let left := [.name (part "y" 1)]
    let later := ((statement index none
      (.expressionStatement (extent "y" 1 8) (left ++ [value]) true false none)).run (.start table)).2
    Coherent table.scopes table.live ∧
      value.Replays ((State.start table).atValue index 2 left value).table ∧
      (later.table.lookupDeclared? "y").map Record.binding = some ⟨"y", .primitive .int, 2⟩ := by
  intro index leaf extent part value own table left later
  have hcoherent : Coherent table.scopes table.live :=
    coherent_run (coherent_initial false) [.define ⟨"x", .classType own, 1⟩]
  have hreplays : value.Replays ((State.start table).atValue index 2 left value).table := by
    intro name trailers record hpath hrecord
    cases hpath
    cases hrecord
    rfl
  obtain ⟨hlater, hsame⟩ :=
    assigned_type_replays index none (extent "y" 1 8) left value (.start table) hcoherent
  refine ⟨hcoherent, hreplays, ?_⟩
  rw [hlater, (hsame hreplays).1]
  rfl

end Inference

end QuantumScript
