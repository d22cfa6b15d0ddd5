import QuantumScript.Assignment
/-!
# Sides of assignments

The tracker of assignments is told what a walk meets. Whatever it has been told, nothing is left of a
statement when it ends. So what it says of the sides of the next one depends on what is told of each side
between its beginning and its end.
-/

namespace QuantumScript

namespace AssignmentTracker

/-- What can be told of the side that is being walked. -/
inductive Touch
  | variableAt (site : Site)
  | indexed
  | access (site : Site)
  | call (arguments : List CallArgument)
  deriving DecidableEq, Repr

/-- What a walk can tell. -/
inductive Event
  | begin (first : Site)
  | touch (own : Touch)
  | assign
  | finish
  deriving DecidableEq, Repr

def Touch.apply (tracker : AssignmentTracker) : Touch → AssignmentTracker
  | .variableAt site => tracker.variableAt site
  | .indexed => tracker.indexed
  | .access site => tracker.access site
  | .call arguments => tracker.call arguments

def Event.apply (tracker : AssignmentTracker) : Event → AssignmentTracker
  | .begin first => tracker.begin first
  | .touch own => own.apply tracker
  | .assign => tracker.assign
  | .finish => tracker.finish.2

/-- The tracker after all that it is told. -/
def run (tracker : AssignmentTracker) (events : List Event) : AssignmentTracker :=
  events.foldl Event.apply tracker

theorem run_append (tracker : AssignmentTracker) (events later : List Event) :
    tracker.run (events ++ later) = (tracker.run events).run later := List.foldl_append

namespace Touch

def isVariable : Touch → Bool
  | .variableAt _ => true
  | _ => false

/-- The value so far is subscripted before a member of it is accessed. -/
def subscripted : List Touch → Bool
  | [] => false
  | .indexed :: _ => true
  | .access _ :: _ => false
  | .variableAt _ :: rest | .call _ :: rest => subscripted rest

/-- The members that are accessed. -/
def members : List Touch → List MemberAccess
  | [] => []
  | .access site :: rest => ⟨site, subscripted rest⟩ :: members rest
  | .variableAt _ :: rest | .indexed :: rest | .call _ :: rest => members rest

/-- The arguments of the last call. -/
def lastArguments (own : List CallArgument) : List Touch → List CallArgument
  | [] => own
  | .call arguments :: rest => lastArguments arguments rest
  | .variableAt _ :: rest | .indexed :: rest | .access _ :: rest => lastArguments own rest

/-- A variable with all that is told after it. -/
def chain (root : Site) (later : List Touch) : AccessChain :=
  ⟨root, subscripted later, members later, lastArguments [] later⟩

/-- The last variable with all that is told after it. -/
def chain? : List Touch → Option AccessChain
  | [] => none
  | .variableAt site :: rest => (chain? rest).or (some (chain site rest))
  | .indexed :: rest | .access _ :: rest | .call _ :: rest => chain? rest

private theorem chain?_eq_none {touches : List Touch} :
    chain? touches = none ↔ ∀ touch ∈ touches, touch.isVariable = false := by
  induction touches with
  | nil => simp [chain?]
  | cons touch rest ih => cases touch <;> simp [chain?, isVariable, ih]

theorem chain?_append (early : List Touch) (site : Site) {later : List Touch}
    (h : ∀ touch ∈ later, touch.isVariable = false) :
    chain? (early ++ .variableAt site :: later) = some (chain site later) := by
  have hlast : chain? (.variableAt site :: later) = some (chain site later) := by
    rw [chain?, chain?_eq_none.mpr h]
    rfl
  induction early with
  | nil => exact hlast
  | cons touch early ih => cases touch <;> simp [chain?, ih]

/-- What is told of a side that has a chain. -/
def onChain (chain : AccessChain) : Touch → AccessChain
  | .variableAt site => .start site
  | .indexed => chain.index
  | .access site => chain.access site
  | .call arguments => { chain with arguments }

def onSide (side : Side) : Touch → Side
  | .variableAt site => { side with chain := some (.start site) }
  | touch => { side with chain := side.chain.map fun chain => touch.onChain chain }

/-- A chain with all that is told after it, no variable among it. -/
def follow (chain : AccessChain) (later : List Touch) : AccessChain :=
  ⟨chain.root, chain.indexed || (chain.members.isEmpty && subscripted later),
    (if subscripted later then AccessChain.indexLast chain.members else chain.members) ++ members later,
    lastArguments chain.arguments later⟩

theorem follow_nil (chain : AccessChain) : follow chain [] = chain := by
  simp [follow, subscripted, members, lastArguments]

private theorem follow_start (root : Site) (later : List Touch) :
    follow (.start root) later = chain root later := by
  simp [follow, chain, AccessChain.start, AccessChain.indexLast]

theorem follow_cons (chain : AccessChain) {touch : Touch} (h : touch.isVariable = false)
    (later : List Touch) : follow (touch.onChain chain) later = follow chain (touch :: later) := by
  cases touch with
  | variableAt site => cases h
  | indexed =>
    rcases chain.members_cases with hnil | ⟨members, last, hlast⟩
    · simp [onChain, follow, AccessChain.index_of_nil hnil, hnil, subscripted, Touch.members, lastArguments,
        AccessChain.indexLast]
    · have hempty (last : MemberAccess) : (members ++ [last]).isEmpty = false := by cases members <;> rfl
      simp [onChain, follow, AccessChain.index_of_append hlast, hlast, hempty, subscripted, Touch.members,
        lastArguments, AccessChain.indexLast_append]
  | access site =>
    simp only [onChain, follow, AccessChain.access, subscripted, Touch.members, lastArguments,
      AccessChain.indexLast_append]
    cases subscripted later <;> simp
  | call arguments => rfl

/-- What a side comes to: its chain since the last variable, or else the one that it had. -/
private theorem foldl_onSide (first : Site) (chain : Option AccessChain) (touches : List Touch) :
    touches.foldl onSide ⟨first, chain⟩ =
      ⟨first, (chain? touches).or (chain.map fun chain => follow chain touches)⟩ := by
  induction touches generalizing chain with
  | nil => simp [chain?, follow_nil]
  | cons touch rest ih =>
    have hfollow (h : touch.isVariable = false) :
        rest.foldl onSide ⟨first, chain.map fun chain => touch.onChain chain⟩ =
          ⟨first, (chain? rest).or (chain.map fun chain => follow chain (touch :: rest))⟩ := by
      rw [ih, Option.map_map]
      simp only [Function.comp_def, follow_cons _ h]
    cases touch with
    | variableAt site =>
      rw [List.foldl_cons, onSide, ih, chain?, Option.map_some, follow_start, Option.or_assoc, Option.some_or]
    | indexed => exact hfollow rfl
    | access site => exact hfollow rfl
    | call arguments => exact hfollow rfl

end Touch

private theorem run_touches (side : Side) (pending targets : List Side) (touches : List Touch) :
    run ⟨side :: pending, targets⟩ (touches.map .touch) =
      ⟨touches.foldl Touch.onSide side :: pending, targets⟩ := by
  induction touches generalizing side with
  | nil => rfl
  | cons touch rest ih =>
    have htouch : Event.apply ⟨side :: pending, targets⟩ (.touch touch) =
        ⟨touch.onSide side :: pending, targets⟩ := by
      cases touch <;> rfl
    rw [List.map_cons, run, List.foldl_cons, htouch]
    exact ih _

/-- A side as it is walked: its first token and all that is told up to its end. -/
structure Walked where
  first : Site
  touches : List Touch
  deriving DecidableEq, Repr

namespace Walked

def events (walked : Walked) : List Event := .begin walked.first :: walked.touches.map .touch

def side (walked : Walked) : Side := ⟨walked.first, Touch.chain? walked.touches⟩

private theorem run_events (walked : Walked) (pending targets : List Side) :
    run ⟨pending, targets⟩ walked.events = ⟨walked.side :: pending, targets⟩ := by
  have hside : walked.touches.foldl Touch.onSide ⟨walked.first, none⟩ = walked.side := by
    rw [Touch.foldl_onSide, Option.map_none, Option.or_none, side]
  rw [← hside]
  exact run_touches _ pending targets walked.touches

end Walked

/-- All that is told of a statement before its end. -/
def statement (targets : List Walked) (value : Walked) : List Event :=
  (targets.flatMap fun target => target.events ++ [.assign]) ++ value.events

theorem run_targets (targets : List Walked) (pending done : List Side) :
    run ⟨pending, done⟩ (targets.flatMap fun target => target.events ++ [.assign]) =
      ⟨pending, (targets.map Walked.side).reverse ++ done⟩ := by
  induction targets generalizing done with
  | nil => rfl
  | cons target rest ih =>
    have htarget : run ⟨pending, done⟩ (target.events ++ [.assign]) = ⟨pending, target.side :: done⟩ := by
      rw [run_append, target.run_events]
      rfl
    rw [List.flatMap_cons, run_append, htarget, ih, List.map_cons, List.reverse_cons, List.append_assoc]
    rfl

private theorem finish_statement (targets : List Walked) (value : Walked) :
    (empty.run (statement targets value)).finish =
      (some ⟨targets.map Walked.side, value.side⟩, empty) := by
  rw [statement, run_append, empty, run_targets, value.run_events]
  simp [finish, empty]

/-- When a statement ends nothing is left of it, whatever the tracker has been told, and whether there was a
value or not. The next statement comes to its targets in their order and its value. Each of these sides has
the chain since the last variable told between its beginning and its end, and is a plain name if and only if
no variable has been told. -/
theorem statements_apart :
    (∀ events, (empty.run events).finish.2 = empty ∧ empty.run (events ++ [.finish]) = empty ∧
      ((empty.run events).finish.1 = none ↔ (empty.run events).pending = [])) ∧
    (∀ targets value, (empty.run (statement targets value)).finish.1 =
      some ⟨targets.map Walked.side, value.side⟩) ∧
    ∀ walked : Walked, walked.side.first = walked.first ∧
      (∀ early site later, walked.touches = early ++ .variableAt site :: later →
        (∀ touch ∈ later, touch.isVariable = false) →
          walked.side.chain = some (Touch.chain site later)) ∧
      ((∃ name, walked.side.plainName? = some name) ↔
        ∀ touch ∈ walked.touches, touch.isVariable = false) ∧
      ∀ name ∈ walked.side.plainName?, name = walked.first.text := by
  refine ⟨fun events => ⟨rfl, ?_, ?_⟩, fun targets value => ?_, fun walked => ⟨rfl, ?_, ?_, ?_⟩⟩
  · rw [run_append]
    rfl
  · simp [finish]
  · rw [finish_statement]
  · intro early site later htouches hlater
    rw [Walked.side, htouches]
    exact Touch.chain?_append early site hlater
  · rw [← Touch.chain?_eq_none, Walked.side, Side.plainName?]
    cases Touch.chain? walked.touches <;> simp
  · intro name hname
    rw [Walked.side, Side.plainName?] at hname
    cases hchain : Touch.chain? walked.touches <;> simp_all

/-- The value of `a = x.b[0].c(d)`. -/
theorem statements_apart_value :
    let site (text : String) : Site := ⟨text, ⟨0, 0⟩, ⟨0, 0, 0⟩⟩
    let later : List Touch :=
      [.access (site "b"), .indexed, .access (site "c"), .call [⟨none, site "d", none, false⟩]]
    let value : Walked := ⟨site "x", .variableAt (site "x") :: later⟩
    value.touches = [] ++ .variableAt (site "x") :: later ∧
      (∀ touch ∈ later, touch.isVariable = false) ∧
      value.side.chain = some ⟨site "x", false, [⟨site "b", true⟩, ⟨site "c", false⟩],
        [⟨none, site "d", none, false⟩]⟩ := by
  intro site later value
  have hlater : ∀ touch ∈ later, touch.isVariable = false := by decide
  exact ⟨rfl, hlater, (statements_apart.2.2 value).2.1 [] (site "x") later rfl hlater⟩

end AssignmentTracker

end QuantumScript
