import QuantumScript.Proofs.Parsing.Steps
/-!
# Forecasts of scripts

A forecast tells what a script can do from what is known of the next tokens: how it can answer, and
what is known afterwards. There is no forecast if a step might be taken that a sound grammar never
takes. Calls are forecast from what the rules promise, so that a grammar is sound if the forecast of
every rule keeps the promises made for it.
-/

namespace QuantumScript

namespace Syntax

namespace TokenKind

/-- Number of a token kind among all kinds. -/
def code : TokenKind → Nat
  | .endOfInput => 1
  | .symbol s => 2 + s.ctorIdx
  | .keyword k => 36 + k.ctorIdx
  | .integer => 69
  | .float => 70
  | .imaginary => 71
  | .quoted => 72
  | .name => 73
  | .blank => 74
  | .comment => 75
  | .newline => 76
  | .indent => 77
  | .dedent => 78
  | .unknown => 79

theorem ofCode?_code (kind : TokenKind) : Kind.ofCode? kind.code = some (.token kind) := by
  cases kind with
  | symbol s => cases s <;> rfl
  | keyword k => cases k <;> rfl
  | _ => rfl

private theorem code_inj {kind other : TokenKind} : kind.code = other.code ↔ kind = other := by
  refine ⟨?_, fun h => h ▸ rfl⟩
  intro h
  have hkind := ofCode?_code kind
  rw [h, ofCode?_code other] at hkind
  simpa using hkind.symm

private theorem code_lt (kind : TokenKind) : kind.code < 80 := by
  cases kind with
  | symbol s => cases s <;> decide
  | keyword k => cases k <;> decide
  | _ => decide

end TokenKind

/-- What is known of the kind of a token: the kinds that it can have, as the bits of a number. -/
structure Kinds where
  mask : Nat
  deriving DecidableEq, Repr

namespace Kinds

def among (kinds : List TokenKind) : Kinds :=
  ⟨kinds.foldr (fun kind mask => 1 <<< kind.code ||| mask) 0⟩

def except (kinds : List TokenKind) : Kinds := ⟨(among kinds).mask ^^^ (1 <<< 80 - 1)⟩

def allows (known : Kinds) (kind : TokenKind) : Bool := known.mask.testBit kind.code

/-- What is known if both are. -/
def meet (known other : Kinds) : Kinds := ⟨known.mask &&& other.mask⟩

/-- No kind is left. -/
def isNone (known : Kinds) : Bool := known.mask == 0

/-- Whatever the first allows, the second allows too. -/
def implies (known other : Kinds) : Bool := known.mask &&& other.mask == known.mask

@[simp] theorem allows_among (kinds : List TokenKind) (kind : TokenKind) :
    (among kinds).allows kind = kinds.contains kind := by
  induction kinds with
  | nil => exact Nat.zero_testBit _
  | cons first kinds ih =>
    have hfirst : (1 <<< first.code).testBit kind.code = (kind == first) := by
      rw [Nat.one_shiftLeft, Nat.testBit_two_pow, Bool.eq_iff_iff, decide_eq_true_eq, beq_iff_eq, TokenKind.code_inj]
      exact eq_comm
    rw [allows, among, List.foldr_cons, Nat.testBit_or, hfirst, List.contains_cons]
    exact congrArg _ ih

@[simp] theorem allows_except (kinds : List TokenKind) (kind : TokenKind) :
    (except kinds).allows kind = !kinds.contains kind := by
  rw [← allows_among]
  simp only [allows, except]
  rw [Nat.testBit_xor, Nat.one_shiftLeft, Nat.testBit_two_pow_sub_one, decide_eq_true kind.code_lt, Bool.xor_true]

/-- Where nothing is excepted, any kind may come. -/
theorem allows_all (kind : TokenKind) : (except []).allows kind = true := allows_except [] kind

theorem allows_meet (known other : Kinds) (kind : TokenKind) :
    (known.meet other).allows kind = (known.allows kind && other.allows kind) :=
  Nat.testBit_and _ _ _

theorem allows_of_implies {known other : Kinds} {kind : TokenKind}
    (himplies : known.implies other = true) (h : known.allows kind = true) :
    other.allows kind = true := by
  have hmask : known.mask &&& other.mask = known.mask := by simpa [implies] using himplies
  have hboth : (known.meet other).allows kind = true := by
    rw [allows, meet, hmask]
    exact h
  rw [allows_meet, Bool.and_eq_true] at hboth
  exact hboth.2

theorem isNone_of_allows {known : Kinds} {kind : TokenKind} (h : known.allows kind = true) :
    known.isNone = false := by
  cases hnone : known.isNone with
  | false => rfl
  | true =>
    have hmask : known.mask = 0 := by simpa [isNone] using hnone
    rw [allows, hmask, Nat.zero_testBit] at h
    cases h

end Kinds

/-- What is known at a place of a script. -/
structure Facts where
  kinds : Kinds
  /-- Kind of the token after the next one. -/
  second : Option TokenKind
  /-- A token has been taken; else none has. -/
  moved : Bool
  /-- The part finished last is the node completed last. -/
  marked : Bool
  deriving DecidableEq, Repr

namespace Facts

def narrow (kinds : Kinds) (facts : Facts) : Facts :=
  { facts with kinds := facts.kinds.meet kinds }

/-- What is known after the next token has been taken. -/
def advance (facts : Facts) : Facts :=
  ⟨match facts.second with
    | some kind => .among [kind]
    | none => .except [],
    none, true, false⟩

/-- What is known after a call of a rule that ends with the given facts. -/
def after (facts outcome : Facts) : Facts :=
  if outcome.moved then outcome
  else { facts.narrow outcome.kinds with marked := outcome.marked }

end Facts

/-- An answer with what is known after it. -/
abbrev Outcome := Bool × Facts

/-- What a rule promises: the outcomes it can have for certain kinds of the next token. -/
abbrev Promise := Kinds × List Outcome

namespace Forecast

def prune (outcomes : List Outcome) : List Outcome :=
  (outcomes.filter fun outcome => !outcome.2.kinds.isNone).eraseDups

/-- Goes on from each of the outcomes. -/
def each (next : Outcome → Option (List Outcome)) : List Outcome → Option (List Outcome)
  | [] => some []
  | outcome :: outcomes => do
    let these ← next outcome
    let others ← each next outcomes
    some (prune (these ++ others))

/-- All outcomes answer yes and leave a node completed last. -/
def completed (outcomes : List Outcome) : List Outcome :=
  prune (outcomes.map fun outcome => (true, { outcome.2 with marked := true }))

/-- The end of a simple statement is reached: it is here, or tokens have to be taken. -/
def finished (outcomes : List Outcome) : List Outcome :=
  outcomes.flatMap fun outcome =>
    (outcome.1, outcome.2.narrow (.among Parse.statementEnds)) ::
      if (outcome.2.kinds.meet (.except Parse.statementEnds)).isNone then []
      else [(outcome.1, ⟨.among Parse.statementEnds, none, true, false⟩)]

/-- The loop ends with a round that answers no. -/
def stopped (moved : Bool) (outcomes : List Outcome) : List Outcome :=
  (outcomes.filter fun outcome => !outcome.1).map fun outcome =>
    (true, { outcome.2 with moved := moved || outcome.2.moved })

/-- Every round that answers yes has taken a token. -/
def steady (marked : Bool) (outcomes : List Outcome) : Bool :=
  outcomes.all fun outcome =>
    !outcome.1 || (outcome.2.moved && (!marked || outcome.2.marked))

end Forecast

namespace Script

open Forecast

variable {Rule : Type}

/-- The outcomes of a script. Calls of rules of rank `bound` or more are allowed only after a token
has been taken; `free` tells that this is so already. -/
def forecast (promises : Rule → List Promise) (rank : Rule → Nat) (bound : Nat) (free : Bool) :
    Script Rule → Facts → Option (List Outcome)
  | .answer value, facts => some [(value, facts)]
  | .bump kind, facts =>
    if facts.kinds.implies (.among [kind]) && kind ≠ .endOfInput then some [(true, facts.advance)]
    else none
  | .demand kinds, facts =>
    if facts.kinds.implies (.among kinds) then some [(true, facts)] else none
  | .advance, facts =>
    if facts.kinds.implies (.except [.endOfInput]) then some [(true, facts.advance)] else none
  | .report _, facts => some [(false, facts)]
  | .ask (.at kinds), facts =>
    some (prune [(true, facts.narrow (.among kinds)), (false, facts.narrow (.except kinds))])
  | .ask (.atPair kinds second), facts =>
    some (prune
      [(true, { facts.narrow (.among kinds) with second := some second }), (false, facts)])
  | .call rule, facts =>
    if free || facts.moved || rank rule < bound then
      ((promises rule).find? fun promise => facts.kinds.implies promise.1).map fun promise =>
        prune (promise.2.map fun outcome => (outcome.1, facts.after outcome.2))
    else none
  | .seq first second, facts => do
    let outcomes ← forecast promises rank bound free first facts
    each (fun outcome => forecast promises rank bound free second outcome.2) outcomes
  | .cond test yes no, facts => do
    let outcomes ← forecast promises rank bound free test facts
    each (fun outcome =>
      if outcome.1 then forecast promises rank bound free yes outcome.2
      else forecast promises rank bound free no outcome.2) outcomes
  | .node _ body, facts =>
    (forecast promises rank bound free body { facts with marked := false }).map completed
  | .wrap _ body, facts =>
    if facts.marked then
      (forecast promises rank bound free body { facts with marked := false }).map completed
    else none
  | .statement _ body, facts =>
    (forecast promises rank bound free body { facts with marked := false }).map fun outcomes =>
      completed (finished outcomes)
  | .loop body, facts => do
    let first ← forecast promises rank bound (free || facts.moved) body
      { facts with moved := false }
    let marked := facts.marked && steady true first
    let again ← forecast promises rank bound true body ⟨.except [], none, false, marked⟩
    if steady false first && steady marked again then
      some (prune (stopped facts.moved first ++ stopped true again))
    else none

section Equations

variable (promises : Rule → List Promise) (rank : Rule → Nat) (bound : Nat) (free : Bool)
  (facts : Facts)

theorem forecast_bump (kind : TokenKind) :
    forecast promises rank bound free (.bump kind) facts =
      if facts.kinds.implies (.among [kind]) && kind ≠ .endOfInput then
        some [(true, facts.advance)]
      else none := rfl

theorem forecast_demand (kinds : List TokenKind) :
    forecast promises rank bound free (.demand kinds) facts =
      if facts.kinds.implies (.among kinds) then some [(true, facts)] else none := rfl

theorem forecast_advance :
    forecast promises rank bound free .advance facts =
      if facts.kinds.implies (.except [.endOfInput]) then some [(true, facts.advance)]
      else none := rfl

theorem forecast_at (kinds : List TokenKind) :
    forecast promises rank bound free (.ask (.at kinds)) facts =
      some (prune
        [(true, facts.narrow (.among kinds)), (false, facts.narrow (.except kinds))]) := rfl

theorem forecast_atPair (kinds : List TokenKind) (second : TokenKind) :
    forecast promises rank bound free (.ask (.atPair kinds second)) facts =
      some (prune
        [(true, { facts.narrow (.among kinds) with second := some second }), (false, facts)]) :=
  rfl

theorem forecast_call (rule : Rule) :
    forecast promises rank bound free (.call rule) facts =
      if free || facts.moved || rank rule < bound then
        ((promises rule).find? fun promise => facts.kinds.implies promise.1).map fun promise =>
          prune (promise.2.map fun outcome => (outcome.1, facts.after outcome.2))
      else none := rfl

theorem forecast_seq (first second : Script Rule) :
    forecast promises rank bound free (.seq first second) facts =
      (forecast promises rank bound free first facts).bind fun outcomes =>
        each (fun outcome => forecast promises rank bound free second outcome.2) outcomes := rfl

theorem forecast_cond (test yes no : Script Rule) :
    forecast promises rank bound free (.cond test yes no) facts =
      (forecast promises rank bound free test facts).bind fun outcomes =>
        each (fun outcome =>
          if outcome.1 then forecast promises rank bound free yes outcome.2
          else forecast promises rank bound free no outcome.2) outcomes := rfl

theorem forecast_node (label : Label) (body : Script Rule) :
    forecast promises rank bound free (.node label body) facts =
      (forecast promises rank bound free body { facts with marked := false }).map completed := rfl

theorem forecast_wrap (kind : NodeKind) (body : Script Rule) :
    forecast promises rank bound free (.wrap kind body) facts =
      if facts.marked then
        (forecast promises rank bound free body { facts with marked := false }).map completed
      else none := rfl

theorem forecast_statement (kind : NodeKind) (body : Script Rule) :
    forecast promises rank bound free (.statement kind body) facts =
      (forecast promises rank bound free body { facts with marked := false }).map fun outcomes =>
        completed (finished outcomes) := rfl

theorem forecast_loop (body : Script Rule) :
    forecast promises rank bound free (.loop body) facts =
      (forecast promises rank bound (free || facts.moved) body
        { facts with moved := false }).bind fun first =>
      (forecast promises rank bound true body
        ⟨.except [], none, false, facts.marked && steady true first⟩).bind fun again =>
      if steady false first && steady (facts.marked && steady true first) again then
        some (prune (stopped facts.moved first ++ stopped true again))
      else none := rfl

end Equations

end Script

/-- The facts hold at a place that was reached from the start of a script. -/
structure Facts.Hold (facts : Facts) (base : List Tree) (start : Sketch) (parse : Parse)
    (sketch : Sketch) : Prop where
  kinds : facts.kinds.allows sketch.current = true
  second : ∀ kind, facts.second = some kind → sketch.second = kind
  moved : if facts.moved then sketch.rest.length < start.rest.length else sketch.rest = start.rest
  marked : facts.marked = true → ∃ part above, parse.parts = part :: (above ++ base) ∧
    parse.mark = (above ++ base).length ∧ part.isTrivia = false

/-- Running and reading end alike, with one of the given outcomes. -/
def Ends (base : List Tree) (start : Sketch) (result : Bool × Parse)
    (reading : Option (Bool × Sketch)) (outcomes : List Outcome) : Prop :=
  ∃ answer next after facts, result = (answer, next) ∧ reading = some (answer, after) ∧
    (answer, facts) ∈ outcomes ∧ Sketched base next after ∧ facts.Hold base start next after

namespace Forecast

variable {base : List Tree} {start : Sketch} {parse : Parse} {sketch : Sketch}
  {outcomes : List Outcome} {facts : Facts}

private theorem mem_prune {outcome : Outcome} :
    outcome ∈ prune outcomes ↔ outcome ∈ outcomes ∧ outcome.2.kinds.isNone = false := by
  simp [prune, List.mem_eraseDups]

theorem mem_prune_of_hold {answer : Bool} (hmem : (answer, facts) ∈ outcomes)
    (h : facts.Hold base start parse sketch) : (answer, facts) ∈ prune outcomes :=
  mem_prune.mpr ⟨hmem, Kinds.isNone_of_allows h.kinds⟩

/-- What one of the outcomes goes on to is among the outcomes of all. -/
theorem mem_each {next : Outcome → Option (List Outcome)} {results : List Outcome}
    (heach : each next outcomes = some results) {outcome : Outcome} (hmem : outcome ∈ outcomes) :
    ∃ these, next outcome = some these ∧
      ∀ result ∈ these, result.2.kinds.isNone = false → result ∈ results := by
  induction outcomes generalizing results with
  | nil => simp at hmem
  | cons head tail ih =>
    simp only [each, Option.bind_eq_bind, Option.bind_eq_some_iff, Option.some.injEq] at heach
    obtain ⟨these, hthese, others, hothers, rfl⟩ := heach
    rcases List.mem_cons.mp hmem with rfl | htail
    · refine ⟨these, hthese, ?_⟩
      intro result hresult hsome
      exact mem_prune.mpr ⟨List.mem_append_left _ hresult, hsome⟩
    · obtain ⟨later, hlater, hall⟩ := ih hothers htail
      refine ⟨later, hlater, ?_⟩
      intro result hresult hsome
      exact mem_prune.mpr ⟨List.mem_append_right _ (hall result hresult hsome), hsome⟩

end Forecast

namespace Facts.Hold

variable {base : List Tree} {start : Sketch} {parse : Parse} {sketch : Sketch} {facts : Facts}

theorem narrow {kinds : Kinds} (h : facts.Hold base start parse sketch)
    (hkinds : kinds.allows sketch.current = true) :
    (facts.narrow kinds).Hold base start parse sketch := by
  refine ⟨?_, h.second, h.moved, h.marked⟩
  rw [Facts.narrow, Kinds.allows_meet, h.kinds, hkinds]
  rfl

theorem length_le (h : facts.Hold base start parse sketch) :
    sketch.rest.length ≤ start.rest.length := by
  have hmoved := h.moved
  split at hmoved
  · omega
  · exact Nat.le_of_eq (congrArg List.length hmoved)

/-- What is known after a call. -/
theorem after {outcome : Facts} {next : Parse} {last : Sketch}
    (h : facts.Hold base start parse sketch) (hlast : outcome.Hold base sketch next last) :
    (facts.after outcome).Hold base start next last := by
  have hle := h.length_le
  have hmoved := hlast.moved
  unfold Facts.after
  split
  · rename_i hm
    rw [if_pos hm] at hmoved
    refine ⟨hlast.kinds, hlast.second, ?_, hlast.marked⟩
    rw [if_pos hm]
    omega
  · rename_i hm
    rw [if_neg hm] at hmoved
    have hcurrent : last.current = sketch.current := by simp only [Sketch.current, hmoved]
    have hsecond : last.second = sketch.second := by simp only [Sketch.second, hmoved]
    refine ⟨?_, ?_, ?_, hlast.marked⟩
    · rw [Facts.narrow, Kinds.allows_meet, hlast.kinds, hcurrent, h.kinds]
      rfl
    · rw [hsecond]
      exact h.second
    · rw [hmoved]
      exact h.moved

/-- A booked error leaves the tokens and the parts as they are. -/
theorem book (problem : Problem) (h : facts.Hold base start parse sketch) :
    facts.Hold base start (parse.book problem) (sketch.book problem) :=
  ⟨h.kinds, h.second, h.moved, h.marked⟩

private theorem current_take (hend : sketch.current ≠ .endOfInput) :
    sketch.take.current = sketch.second ∧ sketch.take.rest.length < sketch.rest.length := by
  obtain ⟨rest, parts, problems⟩ := sketch
  cases rest with
  | nil => exact absurd rfl hend
  | cons token rest =>
    constructor
    · cases rest <;> rfl
    · simp [Sketch.take]

theorem advance (h : facts.Hold base start parse sketch) (hend : sketch.current ≠ .endOfInput) :
    facts.advance.Hold base start parse.take sketch.take := by
  have htake := current_take hend
  have hle := h.length_le
  refine ⟨?_, ?_, ?_, ?_⟩
  · unfold Facts.advance
    split
    · rename_i kind hkind
      rw [htake.1, h.second kind hkind]
      simp
    · exact Kinds.allows_except [] _
  · intro kind hkind
    cases hkind
  · change sketch.take.rest.length < start.rest.length
    omega
  · intro hmarked
    cases hmarked

end Facts.Hold

namespace Ends

variable {base below : List Tree} {start : Sketch} {result : Bool × Parse}
  {reading : Option (Bool × Sketch)} {outcomes : List Outcome}

/-- A node is completed above the base. -/
theorem completed {parts : List Tree} (label : List Tree → NodeKind)
    (hlabel : ∀ trees, label (Tree.bareAll trees) = label trees)
    (hbelow : ∃ top, below = top ++ base ∧ Tree.bareAll top = parts)
    (h : Ends below start result reading outcomes) :
    Ends base start (true, result.2.close label below.length)
      (reading.bind fun after => some (true, { after.2 with
        parts := .node (label after.2.parts.reverse) after.2.parts.reverse :: parts }))
      (Forecast.completed outcomes) := by
  obtain ⟨answer, next, after, facts, rfl, rfl, hmem, hsketch, hfacts⟩ := h
  have hclosed := hsketch.close label hlabel hbelow
  have hhold : Facts.Hold { facts with marked := true } base start
      (next.close label below.length)
      { after with parts := .node (label after.parts.reverse) after.parts.reverse :: parts } := by
    refine ⟨hfacts.kinds, hfacts.second, hfacts.moved, ?_⟩
    intro _
    obtain ⟨top, htop, _⟩ := hsketch.parts
    obtain ⟨above, habove, _⟩ := hbelow
    rw [Parse.close_eq label htop]
    exact ⟨_, above, by rw [habove], by rw [habove], rfl⟩
  exact ⟨true, _, _, _, rfl, rfl,
    Forecast.mem_prune_of_hold (List.mem_map.mpr ⟨_, hmem, rfl⟩) hhold, hclosed, hhold⟩

private theorem skip_ends (sketch : Sketch) :
    Parse.statementEnds.contains sketch.skip.current = true := by
  have hrest : sketch.skip.rest = sketch.rest.dropWhile Sketch.goesOn := rfl
  have hnot := List.head?_dropWhile_not Sketch.goesOn sketch.rest
  rw [← hrest] at hnot
  unfold Sketch.current
  cases heq : sketch.skip.rest with
  | nil => rfl
  | cons token tokens =>
    rw [heq] at hnot
    simpa [Sketch.goesOn] using hnot

private theorem length_skip_lt {sketch : Sketch}
    (h : ¬Parse.statementEnds.contains sketch.current = true) :
    sketch.skip.rest.length < sketch.rest.length := by
  obtain ⟨rest, parts, problems⟩ := sketch
  cases rest with
  | nil => exact absurd rfl h
  | cons token tokens =>
    have hgoes : Sketch.goesOn token = true := by simpa [Sketch.goesOn, Sketch.current] using h
    have hle := (List.dropWhile_sublist Sketch.goesOn (l := tokens)).length_le
    simp only [Sketch.skip, List.dropWhile_cons_of_pos hgoes, List.length_cons]
    omega

private theorem hold_skip {parse : Parse} {sketch : Sketch}
    (h : ¬Parse.statementEnds.contains sketch.current = true)
    (hle : sketch.rest.length ≤ start.rest.length) :
    (Facts.mk (.among Parse.statementEnds) none true false).Hold base start parse sketch.skip := by
  have hskip := length_skip_lt h
  refine ⟨?_, ?_, ?_, ?_⟩
  · rw [Kinds.allows_among]
    exact skip_ends sketch
  · intro kind hkind
    cases hkind
  · change sketch.skip.rest.length < start.rest.length
    omega
  · intro hmarked
    cases hmarked

/-- A simple statement is read up to its end. -/
theorem finished (booked : Nat) (h : Ends base start result reading outcomes) :
    Ends base start (result.1, result.2.finishStatement booked)
      (reading.bind fun mid => some (mid.1, mid.2.finishStatement booked))
      (Forecast.finished outcomes) := by
  obtain ⟨answer, next, after, facts, rfl, rfl, hmem, hsketch, hfacts⟩ := h
  have hle := hfacts.length_le
  refine ⟨answer, next.finishStatement booked, after.finishStatement booked, ?_⟩
  by_cases hends : Parse.statementEnds.contains after.current = true
  · refine ⟨facts.narrow (.among Parse.statementEnds), rfl, rfl, ?_,
      hsketch.finishStatement booked, ?_⟩
    · exact List.mem_flatMap.mpr ⟨_, hmem, List.mem_cons_self⟩
    · rw [Parse.finishStatement, Sketch.finishStatement, ← hsketch.current, if_pos hends,
        if_pos hends]
      exact hfacts.narrow ((Kinds.allows_among _ _).trans hends)
  · refine ⟨⟨.among Parse.statementEnds, none, true, false⟩, rfl, rfl, ?_,
      hsketch.finishStatement booked, ?_⟩
    · refine List.mem_flatMap.mpr ⟨_, hmem, List.mem_cons_of_mem _ ?_⟩
      have hallows :
          (facts.kinds.meet (.except Parse.statementEnds)).allows after.current = true := by
        rw [Kinds.allows_meet, hfacts.kinds, Kinds.allows_except, Bool.eq_false_iff.mpr hends]
        rfl
      rw [Kinds.isNone_of_allows hallows]
      exact List.mem_singleton.mpr rfl
    · rw [Sketch.finishStatement, if_neg hends]
      split
      · exact hold_skip hends hle
      · exact hold_skip hends hle

end Ends

end Syntax

end QuantumScript
