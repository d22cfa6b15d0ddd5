import QuantumScript.Proofs.Locating.Parts
/-!
# Places of reports

What a walk reports of an expression is reported at a name or at an argument of a call, and so it is
located if these are clear. A diagnostic that is about a name stands where the name stands.
-/

namespace QuantumScript

open Ast Text

/-- The name that a diagnostic is about. -/
def Diagnostic.name? (diagnostic : Diagnostic) : Option String :=
  match diagnostic.cause with
  | .semantic (.undefinedSymbol name) | .semantic (.unknownMethod name _) => some name
  | _ => none

/-- The diagnostic is shown where it is, and if it is about a name then this name stands there. -/
structure Diagnostic.Located (text : List Char) (diagnostic : Diagnostic) : Prop where
  shows : Shows text diagnostic.span diagnostic.position
  named : ∀ name, diagnostic.name? = some name →
    slice? diagnostic.span.start diagnostic.span.stop text = some name.toList

namespace Site

/-- The site is shown where it is. -/
def Located (text : List Char) (site : Site) : Prop := Shows text site.span site.position

/-- Besides, it is the site of its own text. -/
def Names (text : List Char) (site : Site) : Prop :=
  site.Located text ∧ slice? site.span.start site.span.stop text = some site.text.toList

end Site

theorem Diagnostic.located_ofFinding {text : List Char} {finding : Finding} {site : Site}
    (hsite : site.Located text) (hname : (Diagnostic.ofFinding finding site).name? = none) :
    (Diagnostic.ofFinding finding site).Located text := by
  refine ⟨hsite, fun name h => ?_⟩
  rw [hname] at h
  cases h

private theorem Diagnostic.located_ofName {text : List Char} {finding : Finding} {site : Site}
    (hsite : site.Names text) (hname : (Diagnostic.ofFinding finding site).name? = some site.text) :
    (Diagnostic.ofFinding finding site).Located text := by
  refine ⟨hsite.1, fun name h => ?_⟩
  rw [hname] at h
  cases h
  exact hsite.2

theorem Ast.Extent.Clear.names {text : List Char} {leaf : Leaf} (h : (Part.leafExtent leaf).Clear text) :
    ((LineIndex.ofText text).leafSite leaf).Names text := by
  have hshows := h.shows
  obtain ⟨own, hown, hstands, _⟩ := h
  have hleaf : (Part.leafExtent leaf).first = some leaf := by
    unfold Part.leafExtent at hown ⊢
    dsimp only at hown ⊢
    split
    · rw [if_pos ‹_›] at hown
      cases hown
    · rfl
  rw [hleaf] at hown
  obtain rfl := Option.some.inj hown
  have hcore : (Part.leafExtent leaf).core = leaf.span := by
    rw [Extent.core, hleaf]
    rfl
  rw [hcore] at hshows
  exact ⟨hshows, hstands.slice⟩

namespace Signature

variable {text : List Char} (signature : Signature) (table : SymbolTable)

private theorem located_typeProblems (rank : Nat) {arguments : List CallArgument}
    (h : ∀ argument ∈ arguments, argument.site.Located text) :
    ∀ diagnostic ∈ signature.typeProblems table rank arguments, diagnostic.Located text := by
  induction arguments generalizing rank with
  | nil => exact nofun
  | cons argument rest ih =>
    obtain ⟨hargument, hrest⟩ := List.forall_mem_cons.mp h
    rw [typeProblems]
    split
    · exact ih rank hrest
    refine List.forall_mem_append.mpr ⟨?_, ih _ hrest⟩
    intro diagnostic hmem
    obtain ⟨entry, _, hproblem⟩ := Option.bind_eq_some_iff.mp (Option.mem_toList.mp hmem)
    unfold typeProblem? at hproblem
    split at hproblem
    · split at hproblem
      · cases hproblem
      · cases hproblem
        exact Diagnostic.located_ofFinding hargument rfl
    · cases hproblem

private theorem located_check {site : Site} (hsite : site.Located text) {arguments : List CallArgument}
    (h : ∀ argument ∈ arguments, argument.site.Located text) :
    ∀ diagnostic ∈ signature.check table site arguments, diagnostic.Located text := by
  unfold check
  split
  · rename_i finding hproblem
    simp only [arityProblem?] at hproblem
    split at hproblem
    · cases hproblem
    · split at hproblem
      · cases hproblem
        exact List.forall_mem_singleton.mpr (Diagnostic.located_ofFinding hsite rfl)
      · cases hproblem
  · exact signature.located_typeProblems table 0 h

end Signature

namespace Inference

/-- If all that was found before the part of a walk is located, then so is all that is found after it,
and its result is as told. -/
def Locates (text : List Char) {α : Type} (result : α → Prop) (part : Inference α) : Prop :=
  ∀ state, (∀ diagnostic ∈ state.diagnostics, diagnostic.Located text) →
    (∀ diagnostic ∈ (part.run state).2.diagnostics, diagnostic.Located text) ∧ result (part.run state).1

/-- As long as nothing is told of the result. -/
abbrev Locating (text : List Char) {α : Type} (part : Inference α) : Prop :=
  Locates text (fun _ => True) part

/-- A callee with a site is located. -/
def Callee.Located (text : List Char) : Callee → Prop
  | .signature _ site | .constructor _ site => site.Located text
  | .unchecked => True

section Parts

variable {text : List Char} {α β : Type}

theorem Locating.of_same {part : Inference α}
    (h : ∀ state, (part.run state).2.diagnostics = state.diagnostics) : Locating text part := by
  intro state hstate
  rw [h]
  exact ⟨hstate, trivial⟩

private theorem locates_pure {result : α → Prop} {value : α} (h : result value) :
    Locates text result (pure value) := fun _ hstate => ⟨hstate, h⟩

theorem locating_pure (value : α) : Locating text (pure value) := locates_pure trivial

theorem Locates.bind {first : Inference α} {next : α → Inference β} {result : α → Prop}
    {final : β → Prop} (hfirst : Locates text result first)
    (hnext : ∀ value, result value → Locates text final (next value)) :
    Locates text final (first >>= next) := by
  intro state hstate
  obtain ⟨hmid, hresult⟩ := hfirst state hstate
  exact hnext _ hresult _ hmid

/-- A step of whose result nothing need be known. -/
theorem Locating.then {first : Inference α} {next : α → Inference β} {final : β → Prop}
    (hfirst : Locating text first) (hnext : ∀ value, Locates text final (next value)) :
    Locates text final (first >>= next) := hfirst.bind fun value _ => hnext value

theorem locating_table : Locating text table := .of_same fun _ => rfl

theorem locating_modifyTable (f : SymbolTable → SymbolTable) : Locating text (modifyTable f) :=
  .of_same fun _ => rfl

theorem locating_track (f : AssignmentTracker → AssignmentTracker) : Locating text (track f) :=
  .of_same fun _ => rfl

theorem locating_finish : Locating text finish := .of_same fun _ => rfl

private theorem locating_report {found : List Diagnostic} (h : ∀ diagnostic ∈ found, diagnostic.Located text) :
    Locating text (report found) :=
  fun _ hstate => ⟨List.forall_mem_append.mpr ⟨hstate, h⟩, trivial⟩

private theorem locating_resolve {site : Site} (h : site.Names text) : Locating text (resolve site) := by
  intro state hstate
  refine ⟨List.forall_mem_append.mpr ⟨hstate, ?_⟩, trivial⟩
  split
  · exact nofun
  · exact List.forall_mem_singleton.mpr (Diagnostic.located_ofName h rfl)

private theorem locating_trackIf (tracked : Bool) (f : AssignmentTracker → AssignmentTracker) :
    Locating text (trackIf tracked f) := by
  unfold trackIf
  split
  · exact locating_track f
  · exact locating_pure ()

theorem locating_forM {f : α → Inference PUnit} (h : ∀ item, Locating text (f item)) (items : List α) :
    Locating text (items.forM f) := by
  induction items with
  | nil => exact locating_pure _
  | cons item rest ih => exact (h item).then fun _ => ih

theorem locating_enter (line : Nat) : Locating text (enter line) := locating_modifyTable _

theorem locating_define (name : String) (type : SymbolType) (line : Nat) :
    Locating text (define name type line) := locating_modifyTable _

theorem locating_defineAll (names : List String) (type : SymbolType) (line : Nat) :
    Locating text (defineAll names type line) :=
  locating_forM (fun name => locating_define name type line) names

theorem locating_defineTarget (target : Expr) (type : SymbolType) (line : Nat) :
    Locating text (defineTarget target type line) := locating_defineAll _ type line

private theorem diagnostics_close (state : State) (line : Nat) :
    (state.close line).diagnostics = state.diagnostics := by
  unfold State.close
  split <;> rfl

theorem Locating.within {name : String} {opened closed : Nat} {body : Inference Unit}
    (h : Locating text body) : Locating text (within name opened closed body) := by
  intro state hstate
  rw [run_within, diagnostics_close]
  exact ⟨(h { state with table := state.table.push name opened } hstate).1, trivial⟩

theorem Locating.isolated {name : String} {line : Nat} {body : Inference Unit} (h : Locating text body) :
    Locating text (isolated name line body) := by
  unfold Inference.isolated
  refine Locating.then (locating_table.then fun _ => locating_pure _) fun resume => ?_
  exact h.within.then fun _ => locating_modifyTable _

private theorem located_ofType (type : Option SymbolType) : (Value.ofType type).callee.Located text := trivial

private theorem located_ofName (type : Option SymbolType) {site : Site} (h : site.Located text) :
    (Value.ofName type site).callee.Located text := by
  unfold Value.ofName
  split
  · exact h
  · exact h
  · trivial

private theorem locates_name {part : Name} (h : part.Marked (Extent.Clear text)) (tracked : Bool) :
    Locates text (fun found : Option Value => ∀ value ∈ found, value.callee.Located text)
      (name (.ofText text) tracked part) := by
  unfold name
  split
  · exact locates_pure fun value hvalue => absurd hvalue (Option.not_mem_none value)
  · rename_i leaf hleaf
    have hnames := (h.2 leaf hleaf).names
    refine (locating_trackIf tracked _).then fun _ => (locating_resolve hnames).then fun type => ?_
    refine locates_pure fun value hvalue => ?_
    cases hvalue
    exact located_ofName type hnames.1

private theorem locates_access {site : Site} (h : site.Names text) (receiver : Option SymbolType)
    (called : Bool) :
    Locates text (fun value => value.callee.Located text) (access receiver site called) := by
  unfold access
  split
  · exact locates_pure (located_ofType _)
  · refine locating_table.then fun table => ?_
    split
    · split
      · exact locates_pure h.1
      · exact locates_pure (located_ofType _)
    · split
      · refine (locating_report ?_).then fun _ => locates_pure (located_ofType _)
        exact List.forall_mem_singleton.mpr (Diagnostic.located_ofName h rfl)
      · exact locates_pure (located_ofType none)
    · exact locates_pure (located_ofType _)

private theorem locating_call {callee : Callee} (h : callee.Located text) {arguments : List CallArgument}
    (harguments : ∀ argument ∈ arguments, argument.site.Located text) :
    Locating text (call callee arguments) := by
  unfold call
  refine locating_table.then fun table => ?_
  split
  · exact (locating_report (Signature.located_check _ table h harguments)).then fun _ => locating_pure _
  · split
    · exact (locating_report (Signature.located_check _ table h harguments)).then fun _ => locating_pure _
    · exact (locating_pure _).then fun _ => locating_pure _
  · exact locating_pure _

theorem locating_defineLoopTarget (line : Nat) (target iterable : Option Expr)
    (iterated : Option SymbolType) :
    Locating text (defineLoopTarget line target iterable iterated) := by
  unfold defineLoopTarget
  split
  · exact locating_pure ()
  · exact locating_table.then fun _ => locating_defineTarget _ _ _

end Parts

section Expressions

variable {text : List Char} (line : Nat)

mutual

/-- What the walk of an expression reports is located. -/
theorem locating_expr (e : Expr) (h : e.Marked (Extent.Clear text)) (tracked : Bool) :
    Locating text (expr (.ofText text) line tracked e) := by
  match e with
  | .name part =>
    rw [expr]
    exact (locates_name h tracked).bind fun _ _ => locating_pure _
  | .literal _ _ | .chain _ none _ | .parenthesized _ none =>
    rw [expr]
    exact locating_pure _
  | .chain _ (some atom) trailers =>
    have hatom := locating_expr atom h.2.1 false
    cases atom with
    | name part =>
      rw [expr]
      refine (locates_name h.2.1 tracked).bind fun value hvalue => ?_
      split
      · exact locating_pure _
      · exact locating_chain (hvalue _ rfl) _ h.2.2 tracked
    | _ =>
      rw [expr]
      · exact hatom.then fun _ => locating_chain (located_ofType _) _ h.2.2 tracked
      · simp
  | .binary _ operator left right =>
    rw [expr]
    refine (locating_optional _ h.1).then fun _ => (locating_optional _ h.2).then fun _ => ?_
    split <;> exact locating_pure _
  | .unary _ _ value | .yield _ value =>
    rw [expr]
    exact (locating_optional _ h).then fun _ => locating_pure _
  | .parenthesized _ (some inner) =>
    rw [expr]
    exact locating_expr inner h tracked
  | .list _ items | .dictionary _ items | .conditional _ items | .expressionList _ items =>
    rw [expr]
    exact (locating_exprs _ h).then fun _ => locating_pure _
  | .lambda _ none body =>
    rw [expr]
    refine Locating.then (.isolated ?_) fun _ => locating_pure _
    exact (locating_defineAll _ _ _).then fun _ => (locating_optional _ h).then fun _ => locating_pure _
  | .lambda _ (some ⟨_, items⟩) body =>
    rw [expr]
    refine (locating_defaults _ h.1).then fun _ => Locating.then (.isolated ?_) fun _ => locating_pure _
    exact (locating_defineAll _ _ _).then fun _ => (locating_optional _ h.2).then fun _ => locating_pure _
  | .comprehension _ elements clauses _ _ =>
    rw [expr]
    refine Locating.then (.isolated ?_) fun _ => locating_pure _
    exact (locating_generators _ h.1).then fun _ => locating_exprs _ h.2

theorem locating_optional (e : Option Expr) (h : MarkedOptional (Extent.Clear text) e) :
    Locating text (optional (.ofText text) line e) := by
  match e with
  | none =>
    rw [optional]
    exact locating_pure _
  | some e =>
    rw [optional]
    exact locating_expr _ h false

theorem locating_exprs (items : List Expr) (h : MarkedExprs (Extent.Clear text) items) :
    Locating text (exprs (.ofText text) line items) := by
  match items with
  | [] =>
    rw [exprs]
    exact locating_pure _
  | e :: rest =>
    rw [exprs]
    exact (locating_expr _ h.1 false).then fun _ => locating_exprs _ h.2

private theorem locating_chain {value : Value} (hvalue : value.callee.Located text) (trailers : List Trailer)
    (h : MarkedTrailers (Extent.Clear text) trailers) (tracked : Bool) :
    Locating text (chain (.ofText text) line tracked value trailers) := by
  match trailers with
  | [] =>
    rw [chain]
    exact locating_pure _
  | .attribute _ part :: rest =>
    rw [chain]
    split
    · exact locating_chain (located_ofType _) _ h.2 tracked
    · rename_i leaf hleaf
      obtain ⟨name, hname, hident⟩ := Option.bind_eq_some_iff.mp hleaf
      have hnames := ((h.1 name hname).2 leaf hident).names
      refine (locating_trackIf tracked _).then fun _ => ?_
      exact (locates_access hnames _ _).bind fun _ hvalue => locating_chain hvalue _ h.2 tracked
  | .arguments _ items :: rest =>
    rw [chain]
    refine (locates_arguments _ h.1).bind fun given hgiven => (locating_trackIf tracked _).then fun _ => ?_
    exact (locating_call hvalue hgiven).then fun _ => locating_chain (located_ofType _) _ h.2 tracked
  | .subscripts _ items :: rest =>
    rw [chain]
    refine (locating_subscripts _ h.1).then fun _ => (locating_trackIf tracked _).then fun _ => ?_
    exact locating_table.then fun _ => locating_chain (located_ofType _) _ h.2 tracked

private theorem locates_arguments (items : List Argument) (h : MarkedArguments (Extent.Clear text) items) :
    Locates text (fun given => ∀ argument ∈ given, argument.site.Located text)
      (arguments (.ofText text) line items) := by
  match items with
  | [] =>
    rw [arguments]
    exact locates_pure nofun
  | ⟨extent, keyword, unpacked, value⟩ :: rest =>
    rw [arguments]
    refine (locating_optional _ h.2.1).then fun _ => (locates_arguments _ h.2.2).bind fun given hgiven => ?_
    exact locates_pure (List.forall_mem_cons.mpr ⟨Extent.Clear.shows h.1, hgiven⟩)

private theorem locating_subscripts (items : List Subscript) (h : MarkedSubscripts (Extent.Clear text) items) :
    Locating text (subscripts (.ofText text) line items) := by
  match items with
  | [] =>
    rw [subscripts]
    exact locating_pure _
  | ⟨_, parts⟩ :: rest =>
    rw [subscripts]
    exact (locating_exprs _ h.1).then fun _ => locating_subscripts _ h.2

theorem locating_defaults (items : List Parameter) (h : MarkedParameters (Extent.Clear text) items) :
    Locating text (defaults (.ofText text) line items) := by
  match items with
  | [] =>
    rw [defaults]
    exact locating_pure _
  | ⟨_, _, _, none, _⟩ :: rest =>
    rw [defaults]
    exact locating_defaults _ h.2.2
  | ⟨_, _, _, some ⟨_, value⟩, _⟩ :: rest =>
    rw [defaults]
    exact (locating_optional _ h.2.1).then fun _ => locating_defaults _ h.2.2

private theorem locating_generators (clauses : List Clause) (h : MarkedClauses (Extent.Clear text) clauses) :
    Locating text (generators (.ofText text) line clauses) := by
  match clauses with
  | [] =>
    rw [generators]
    exact locating_pure _
  | .forClause _ target iterable :: rest =>
    rw [generators]
    refine (locating_optional _ h.2.1).then fun _ => ?_
    exact (locating_defineLoopTarget _ _ _ _).then fun _ => locating_generators _ h.2.2
  | .ifClause _ condition :: rest =>
    rw [generators]
    exact (locating_optional _ h.1).then fun _ => locating_generators _ h.2

end

theorem locating_types {items : List (Option Expr)}
    (h : ∀ e ∈ items, MarkedOptional (Extent.Clear text) e) :
    Locating text (types (.ofText text) line items) := by
  induction items with
  | nil => exact locating_pure _
  | cons e rest ih =>
    obtain ⟨he, hrest⟩ := List.forall_mem_cons.mp h
    exact (locating_optional line e he).then fun _ => (ih hrest).then fun _ => locating_pure _

end Expressions

end Inference

end QuantumScript
