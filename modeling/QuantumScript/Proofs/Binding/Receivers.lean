import QuantumScript.Proofs.Binding.Parameters
import QuantumScript.Proofs.Calling.Passing
import QuantumScript.Proofs.Typing.Inheritance
import QuantumScript.Proofs.Walking.Visits
/-!
# Receivers of methods

What a method is called on is told twice. Where its body is walked the first parameter is bound to the class,
whatever its name is, unless it is starred. The signature of the method leaves the first parameter out only if
it is called `self`. A first parameter of another name is bound to the class, and is counted too.
-/

namespace QuantumScript

namespace Ast.Parameter

/-- The parameter that the body of a method takes for the receiver. -/
def boundReceiver (items : List Parameter) : Option Parameter := items.head?.filter isNamed

/-- The parameter that the signature of a method leaves out. -/
def omittedReceiver (items : List Parameter) : Option Parameter := items.head?.filter isReceiver

/-- The parameters besides the one that the body takes for the receiver. -/
def besidesReceiver (items : List Parameter) : List Parameter :=
  items.drop (boundReceiver items).toList.length

variable {items : List Parameter} {parameter : Parameter}

@[simp] theorem boundReceiver_cons (first : Parameter) (rest : List Parameter) :
    boundReceiver (first :: rest) = if first.isNamed then some first else none := rfl

@[simp] theorem omittedReceiver_cons (first : Parameter) (rest : List Parameter) :
    omittedReceiver (first :: rest) = if first.isReceiver then some first else none := rfl

private theorem bound_of_omitted (h : omittedReceiver items = some parameter) :
    boundReceiver items = some parameter := by
  obtain ⟨hhead, hreceiver⟩ := Option.filter_eq_some_iff.mp h
  exact Option.filter_eq_some_iff.mpr ⟨hhead, isNamed_of_isReceiver hreceiver⟩

theorem bound_eq_omitted_iff :
    boundReceiver items = omittedReceiver items ↔ ∀ p ∈ boundReceiver items, p.text = some "self" := by
  constructor
  · intro h p hp
    obtain ⟨-, hreceiver⟩ := Option.filter_eq_some_iff.mp (h ▸ hp)
    simp only [isReceiver, Bool.and_eq_true, decide_eq_true_eq] at hreceiver
    exact hreceiver.2
  · intro h
    cases hbound : boundReceiver items with
    | none =>
      cases homitted : omittedReceiver items with
      | none => rfl
      | some p => rw [bound_of_omitted homitted] at hbound; cases hbound
    | some p =>
      obtain ⟨hhead, hnamed⟩ := Option.filter_eq_some_iff.mp hbound
      have hreceiver : p.isReceiver = true := by
        simp only [isNamed, Bool.and_eq_true] at hnamed
        simp [isReceiver, hnamed.1, h p hbound]
      exact (Option.filter_eq_some_iff.mpr ⟨hhead, hreceiver⟩).symm

private theorem isReceiver_of_agree {rest : List Parameter}
    (h : boundReceiver (parameter :: rest) = omittedReceiver (parameter :: rest)) :
    parameter.isReceiver = parameter.isNamed := by
  rw [boundReceiver_cons, omittedReceiver_cons] at h
  cases hnamed : parameter.isNamed with
  | false => exact Bool.eq_false_iff.mpr fun hreceiver => by simp [isNamed_of_isReceiver hreceiver] at hnamed
  | true =>
    by_contra hreceiver
    simp [hnamed, hreceiver] at h

private theorem filterMap_withoutReceiver (h : boundReceiver items = omittedReceiver items) :
    (withoutReceiver true items).filterMap spec? = (besidesReceiver items).filterMap spec? := by
  cases items with
  | nil => rfl
  | cons first rest =>
    have hagree := isReceiver_of_agree h
    cases hnamed : first.isNamed <;> simp [withoutReceiver, besidesReceiver, hagree, hnamed]

private theorem filterMap_withoutReceiver_of_ne (h : boundReceiver items ≠ omittedReceiver items) :
    ∃ p spec, boundReceiver items = some p ∧ p.spec? = some spec ∧
      (withoutReceiver true items).filterMap spec? = spec :: (besidesReceiver items).filterMap spec? := by
  cases items with
  | nil => exact absurd rfl h
  | cons first rest =>
    have hreceiver : first.isReceiver = false := by
      by_contra hreceiver
      rw [Bool.not_eq_false] at hreceiver
      simp [hreceiver, isNamed_of_isReceiver hreceiver] at h
    have hnamed : first.isNamed = true := by
      by_contra hnamed
      simp [hnamed, hreceiver] at h
    obtain ⟨spec, hspec⟩ := Option.isSome_iff_exists.mp ((isSome_spec? first).trans hnamed)
    refine ⟨first, spec, by simp [hnamed], hspec, ?_⟩
    simp [withoutReceiver, besidesReceiver, hnamed, hreceiver, hspec]

end Ast.Parameter

namespace Inference

open Ast Ast.Parameter
open Text (LineIndex)

/-- Binds the receiver of a method, if a parameter is taken for it. -/
def receiver (line : Nat) (own : ClassType) (items : List Parameter) : Inference Unit :=
  match (boundReceiver items).bind Parameter.text with
  | some name => define name (.classType own) line
  | none => pure ()

/-- Of the parameters of a method the receiver is bound to the class, and the others as those of any
function. -/
private theorem parameters_of_owner (line : Nat) (own : ClassType) (items : List Parameter) :
    Inference.parameters line (some own) items =
      (receiver line own items >>= fun _ => Inference.parameters line none (besidesReceiver items)) := by
  cases items with
  | nil => rfl
  | cons first rest =>
    cases htext : first.text with
    | none =>
      have hnamed : first.isNamed = false := by simp [isNamed, htext]
      simp [Inference.parameters, receiver, besidesReceiver, hnamed, htext]
    | some name =>
      cases hvariadic : first.variadic with
      | true =>
        have hnamed : first.isNamed = false := by simp [isNamed, hvariadic]
        simp [Inference.parameters, receiver, besidesReceiver, hnamed, htext, hvariadic]
      | false =>
        have hnamed : first.isNamed = true := by simp [isNamed, hvariadic, htext]
        simp [Inference.parameters, receiver, besidesReceiver, hnamed, htext, hvariadic]

private theorem bindings_received (line : Nat) (own : ClassType) (items : List Parameter) (name : String)
    (type : SymbolType) (state : State) :
    let received := state.after do
      define name type line
      openScope name line
      receiver line own items
    received.table.scopes[received.table.current]?.map Scope.bindings =
      some (((boundReceiver items).bind Parameter.text).toList.map fun name =>
        ⟨name, .classType own, line⟩) := by
  intro received
  let opened := (state.table.define ⟨name, type, line⟩).push name line
  have hopened : opened.scopes[opened.current]?.map Scope.bindings = some [] := by
    have hlast : opened.scopes[opened.current]? = _ := List.getElem?_concat_length
    rw [hlast]
    rfl
  cases hbound : (boundReceiver items).bind Parameter.text with
  | none =>
    have hreceived : received.table = opened := by
      dsimp only [received]
      simp only [receiver, hbound]
      rfl
    rw [hreceived]
    exact hopened
  | some text =>
    have hreceived : received.table = opened.define ⟨text, .classType own, line⟩ := by
      dsimp only [received]
      simp only [receiver, hbound]
      rfl
    obtain ⟨scope, hscope, hnil⟩ := Option.map_eq_some_iff.mp hopened
    have hdefined : (opened.define ⟨text, .classType own, line⟩).scopes[opened.current]? =
        some (scope.insert ⟨text, .classType own, line⟩) := by
      change (opened.scopes.modify opened.current _)[opened.current]? = _
      rw [List.getElem?_modify_eq, hscope]
      rfl
    rw [hreceived]
    change Option.map Scope.bindings (opened.define ⟨text, .classType own, line⟩).scopes[opened.current]? = _
    rw [hdefined, Option.map_some]
    obtain ⟨_, _, _, _, _, bindings⟩ := scope
    obtain rfl : bindings = [] := hnil
    rfl

private theorem after_suite {body : Option Suite} {before after : List Statement} {s : Statement}
    (h : statementsOf body = before ++ s :: after) (index : LineIndex) (owner : Option ClassType)
    (state : State) : state.after (suite index owner body) =
      ((state.after (statements index owner before)).after (statement index owner s)).after
        (statements index owner after) := by
  have hsuite : state.after (suite index owner body) =
      state.after (statements index owner (statementsOf body)) := by
    cases body with
    | none => rw [suite, statementsOf, statements]
    | some items =>
      obtain ⟨_, items⟩ := items
      rw [suite, statementsOf]
  rw [hsuite, h, State.after, run_statements_append, statements]
  rfl

private theorem run_call_access {own : ClassType} {site : Site} {signature : Signature}
    (h : own.member? site.text = some signature) (arguments : List CallArgument) (state : State) :
    ((do
      let value ← access (some (.classType own)) site true
      call value.callee arguments : Inference _).run state).2 =
        { state with diagnostics := state.diagnostics ++ signature.check state.table site arguments } := by
  have hmember : state.table.member (.classType own) site.text =
      .found (signature.returns.bind state.table.resolveType?) := by simp [SymbolTable.member, h]
  have haccess : (access (some (.classType own)) site true).run state =
      (⟨signature.returns.bind state.table.resolveType?, .signature signature site⟩, state) := by
    simp only [access, table, StateT.run_bind, StateT.run_map, StateT.run_get, pure_bind, map_pure, hmember,
      SymbolType.class?, Option.bind_some, h]
    rfl
  rw [StateT.run_bind, haccess]
  rfl

private theorem member?_of_first {className : Option Name} {classBody : Option Suite} {declared : ClassType}
    (hclass : classType? className classBody = some declared) {before after : List Statement} {s : Statement}
    (hbody : statementsOf classBody = before ++ s :: after) {signature : Signature}
    (hmethod : s.method? = some signature)
    (hfirst : ∀ other ∈ before.filterMap Statement.method?, other.name ≠ signature.name)
    (bases : List SymbolType) : (declared.inherit bases).member? signature.name = some signature := by
  obtain ⟨_, -, rfl⟩ := Option.map_eq_some_iff.mp hclass
  have hbefore : (before.filterMap Statement.method?).find?
      (fun member => member.name = signature.name) = none :=
    List.find?_eq_none.mpr fun other hmem => by simpa using hfirst other hmem
  rw [ClassType.member?_inherit, ClassType.member?, hbody, List.filterMap_append,
    List.filterMap_cons_some hmethod, List.find?_append, hbefore]
  simp

variable {className : Option Name} {classBody : Option Suite} {declared : ClassType}
  {before after : List Statement} {extent : Extent} {decorated : List Holder} {name : Option Name}
  {parameters : Option Parameters} {returns : Option Holder} {body : Option Suite} {signature : Signature}

/-- What a method is called on. Where a class is walked, a function that stands directly in its body is walked
between the statements around it, with the class as owner. The scope of the function is opened, the receiver is
bound to the class in it, which is all that the scope holds then, and the other parameters and the body follow.
The receiver is the first parameter, unless that is starred or has no name. It is the parameter that the
signature leaves out if its name is `self`, and only then. If so, or if there is none, the signature has the
other parameters and no more, else it has the receiver in front of them. A call of the first member of the name
on an instance is checked against this signature: if it takes no others and nothing is unpacked, the number of
arguments is wrong just if it is below that of the parameters that are not optional or above that of all. -/
theorem method_receiver (hclass : classType? className classBody = some declared)
    (hbody : statementsOf classBody =
      before ++ .function extent decorated name parameters returns body :: after)
    (hsignature : signature? true name parameters returns = some signature) :
    let s : Statement := .function extent decorated name parameters returns body
    let items := parametersOf parameters
    let bound := boundReceiver items
    let others := (besidesReceiver items).filterMap Parameter.spec?
    (∀ index outer state own decorated bases,
      let head := (classHead index own decorated bases).run state
      let type := declared.inherit head.1
      let entered := head.2.after do
        define type.name (.classType type) (index.firstLine own)
        openScope type.name (index.firstLine own)
      state.after (statement index outer (.classDefinition own decorated className bases classBody)) =
        (((entered.after (statements index (some type) before)).after (statement index (some type) s)).after
          (statements index (some type) after)).close (index.lastLine own)) ∧
    (∀ (index : LineIndex) own (state : State),
      let line := index.firstLine extent
      let received := (state.atName index extent decorated parameters).after do
        define signature.name (.function signature) line
        openScope signature.name line
        receiver line own items
      state.after (statement index (some own) s) =
        ((received.after (Inference.parameters line none (besidesReceiver items))).after
          (suite index none body)).close (index.lastLine extent) ∧
      received.table.scopes[received.table.current]?.map Scope.bindings =
        some ((bound.bind Parameter.text).toList.map fun name => ⟨name, .classType own, line⟩)) ∧
    (∀ p ∈ omittedReceiver items, bound = some p) ∧
    (bound = omittedReceiver items ↔ ∀ p ∈ bound, p.text = some "self") ∧
    (bound = omittedReceiver items → signature.parameters = others) ∧
    (bound ≠ omittedReceiver items → ∃ p spec, bound = some p ∧ p.spec? = some spec ∧
      signature.parameters = spec :: others) ∧
    ((∀ other ∈ before.filterMap Statement.method?, other.name ≠ signature.name) →
      ∀ bases site arguments (state : State), site.text = signature.name →
        let found := signature.check state.table site arguments
        let required := (signature.parameters.filter fun parameter => !parameter.optional).length
        let allowed := signature.parameters.length
        let given := arguments.length
        state.after (do
          let value ← access (some (.classType (declared.inherit bases))) site true
          call value.callee arguments) = { state with diagnostics := state.diagnostics ++ found } ∧
        (signature.variadic = false → (∀ argument ∈ arguments, argument.unpacked = false) →
          found = if given < required ∨ allowed < given then
            [.ofFinding (.arityMismatch signature.name required allowed given) site]
          else signature.typeProblems state.table 0 arguments)) := by
  intro s items bound others
  have hparameters : signature.parameters = (withoutReceiver true items).filterMap Parameter.spec? := by
    obtain ⟨_, -, rfl⟩ := Option.map_eq_some_iff.mp hsignature
    rfl
  refine ⟨?_, ?_, fun p hp => bound_of_omitted hp, bound_eq_omitted_iff, fun hagree => ?_,
    fun hdiffer => ?_, ?_⟩
  · intro index outer state own decorated bases head type entered
    rw [State.after_class hclass, after_suite hbody]
  · intro index own state line received
    constructor
    · rw [State.after, run_function index (some own) extent decorated parameters state body hsignature]
      rw [State.atBody, parameters_of_owner]
      rfl
    · exact bindings_received line own items _ _ _
  · rw [hparameters, filterMap_withoutReceiver hagree]
  · rw [hparameters]
    exact filterMap_withoutReceiver_of_ne hdiffer
  · intro hfirst bases site arguments state hsite found required allowed given
    have hmember := member?_of_first hclass hbody hsignature hfirst bases
    rw [← hsite] at hmember
    exact ⟨run_call_access hmember arguments state, fun hvariadic hpacked =>
      Signature.check_of_counted hvariadic hpacked state.table site⟩

/-- The method `m` of a class `A` that calls its receiver `this`: the body takes it for the receiver, the
signature counts it, and so `A().m()` is said to lack an argument. -/
theorem method_receiver_renamed :
    let leaf (text : String) : Leaf := ⟨.name, text, ⟨0, 1⟩⟩
    let extent : Extent := ⟨⟨0, 1⟩, none, 1⟩
    let part (text : String) : Option Name := some ⟨extent, some (leaf text)⟩
    let this : Parameter := ⟨extent, part "this", none, none, false⟩
    let s : Statement := .function extent [] (part "m") (some ⟨extent, [this]⟩) none none
    let own : ClassType := ⟨"A", [⟨"m", [⟨"this", none, false⟩], none, false⟩]⟩
    let site : Site := ⟨"m", ⟨0, 1⟩, ⟨0, 0, 1⟩⟩
    classType? (part "A") (some ⟨extent, [s]⟩) = some own ∧ s.method? = own.member? "m" ∧
      boundReceiver [this] ≠ omittedReceiver [this] ∧
      ∀ state : State, (state.after (do
        let value ← access (some (.classType own)) site true
        call value.callee [])).diagnostics =
          state.diagnostics ++ [.ofFinding (.arityMismatch "m" 1 1 0) site] := by
  intro leaf extent part this s own site
  have hclass : classType? (part "A") (some ⟨extent, [s]⟩) = some own := rfl
  have hsignature : signature? true (part "m") (some ⟨extent, [this]⟩) none = own.member? "m" := rfl
  have hbody : statementsOf (some ⟨extent, [s]⟩) = [] ++ s :: [] := rfl
  obtain ⟨-, -, -, hagree, -, -, hcall⟩ := method_receiver hclass hbody hsignature
  refine ⟨hclass, hsignature, fun hsame => ?_, fun state => ?_⟩
  · exact absurd (hagree.mp hsame this rfl) (by decide)
  · obtain ⟨hrun, hfound⟩ := hcall (by simp) [] site [] state rfl
    have hcounted := hfound rfl (by simp)
    exact (congrArg State.diagnostics hrun).trans (congrArg (state.diagnostics ++ ·) hcounted)

end Inference

end QuantumScript
