import QuantumScript.Proofs.Parsing.Forecast
/-!
# Truth of forecasts

A forecast tells the truth of every place at which its facts hold: running the script and reading it
on the sketch end alike, with one of the outcomes foretold. One lemma for each form of script shows
this, given that the calls end as the rules promise.
-/

namespace QuantumScript

namespace Syntax

namespace Script

open Forecast

variable {Rule : Type} {grammar : Rule → Script Rule} {promises : Rule → List Promise}
  {rank : Rule → Nat} {rules : Rule → Action} {bound origin : Nat}

/-- Calls end as the rule promises. -/
def Kept (grammar : Rule → Script Rule) (promises : Rule → List Promise) (rule : Rule)
    (action : Action) (parse : Parse) (sketch : Sketch) : Prop :=
  ∀ base, Sketched base parse sketch → ∀ promise ∈ promises rule,
    promise.1.allows sketch.current = true →
    Ends base sketch (action parse) (read grammar (grammar rule) sketch) promise.2

/-- The calls that a script may make, given how many tokens were ahead of its rule. -/
def CallsKept (grammar : Rule → Script Rule) (promises : Rule → List Promise) (rank : Rule → Nat)
    (rules : Rule → Action) (bound origin : Nat) : Prop :=
  ∀ rule parse sketch,
    sketch.rest.length < origin ∨ sketch.rest.length ≤ origin ∧ rank rule < bound →
    Kept grammar promises rule (rules rule) parse sketch

/-- A forecast tells the truth of all places at which its facts hold. -/
def Truthful (grammar : Rule → Script Rule) (promises : Rule → List Promise) (rank : Rule → Nat)
    (rules : Rule → Action) (bound origin : Nat) (script : Script Rule) : Prop :=
  ∀ {free facts outcomes base start parse sketch},
    forecast promises rank bound free script facts = some outcomes →
    Sketched base parse sketch → facts.Hold base start parse sketch →
    start.rest.length ≤ origin → (free = true → start.rest.length < origin) →
    Ends base start (run rules script parse) (read grammar script sketch) outcomes

private theorem truthful_call (hcalls : CallsKept grammar promises rank rules bound origin) (rule : Rule) :
    Truthful grammar promises rank rules bound origin (.call rule) := by
  intro free facts outcomes base start parse sketch hforecast hsketch hfacts horigin hfree
  rw [forecast_call] at hforecast
  split at hforecast
  · rename_i hallowed
    simp only [Option.map_eq_some_iff] at hforecast
    obtain ⟨promise, hfind, rfl⟩ := hforecast
    have hmem := List.mem_of_find?_eq_some hfind
    have himplies := List.find?_some hfind
    have hle := hfacts.length_le
    have hsmaller : sketch.rest.length < origin ∨
        sketch.rest.length ≤ origin ∧ rank rule < bound := by
      simp only [Bool.or_eq_true, decide_eq_true_eq] at hallowed
      rcases hallowed with (hf | hm) | hr
      · have := hfree hf
        omega
      · have hmoved := hfacts.moved
        rw [hm] at hmoved
        simp only [if_true] at hmoved
        omega
      · omega
    have hkept := hcalls rule parse sketch hsmaller base hsketch promise hmem
      (Kinds.allows_of_implies himplies hfacts.kinds)
    obtain ⟨answer, next, after, outcome, hrun, hread, houtcome, hnext, hhold⟩ := hkept
    refine ⟨answer, next, after, facts.after outcome, hrun, ?_, ?_, hnext, hfacts.after hhold⟩
    · rw [read_call, hread]
    · exact Forecast.mem_prune_of_hold (List.mem_map.mpr ⟨_, houtcome, rfl⟩) (hfacts.after hhold)
  · cases hforecast

private theorem truthful_seq {first second : Script Rule}
    (hfirst : Truthful grammar promises rank rules bound origin first)
    (hsecond : Truthful grammar promises rank rules bound origin second) :
    Truthful grammar promises rank rules bound origin (.seq first second) := by
  intro free facts outcomes base start parse sketch hforecast hsketch hfacts horigin hfree
  rw [forecast_seq, Option.bind_eq_some_iff] at hforecast
  obtain ⟨middle, hmiddle, heach⟩ := hforecast
  obtain ⟨answer, next, after, mid, hrun, hread, hmem, hnext, hmid⟩ :=
    hfirst hmiddle hsketch hfacts horigin hfree
  obtain ⟨these, hthese, hall⟩ := Forecast.mem_each heach hmem
  obtain ⟨answer', next', after', last, hrun', hread', hmem', hnext', hlast⟩ :=
    hsecond hthese hnext hmid horigin hfree
  refine ⟨answer', next', after', last, ?_, ?_, ?_, hnext', hlast⟩
  · rw [run_seq, hrun, hrun']
  · rw [read_seq, hread, Option.bind_some, hread']
  · exact hall _ hmem' (Kinds.isNone_of_allows hlast.kinds)

private theorem truthful_cond {test yes no : Script Rule}
    (htest : Truthful grammar promises rank rules bound origin test)
    (hyes : Truthful grammar promises rank rules bound origin yes)
    (hno : Truthful grammar promises rank rules bound origin no) :
    Truthful grammar promises rank rules bound origin (.cond test yes no) := by
  intro free facts outcomes base start parse sketch hforecast hsketch hfacts horigin hfree
  rw [forecast_cond, Option.bind_eq_some_iff] at hforecast
  obtain ⟨middle, hmiddle, heach⟩ := hforecast
  obtain ⟨answer, next, after, mid, hrun, hread, hmem, hnext, hmid⟩ :=
    htest hmiddle hsketch hfacts horigin hfree
  obtain ⟨these, hthese, hall⟩ := Forecast.mem_each heach hmem
  rw [run_cond, hrun, read_cond, hread, Option.bind_some]
  cases answer with
  | true =>
    obtain ⟨answer', next', after', last, hrun', hread', hmem', hnext', hlast⟩ :=
      hyes hthese hnext hmid horigin hfree
    exact ⟨answer', next', after', last, hrun', hread',
      hall _ hmem' (Kinds.isNone_of_allows hlast.kinds), hnext', hlast⟩
  | false =>
    obtain ⟨answer', next', after', last, hrun', hread', hmem', hnext', hlast⟩ :=
      hno hthese hnext hmid horigin hfree
    exact ⟨answer', next', after', last, hrun', hread',
      hall _ hmem' (Kinds.isNone_of_allows hlast.kinds), hnext', hlast⟩

private theorem truthful_bump (kind : TokenKind) :
    Truthful grammar promises rank rules bound origin (.bump kind) := by
  intro free facts outcomes base start parse sketch hforecast hsketch hfacts horigin hfree
  rw [forecast_bump] at hforecast
  split at hforecast
  · rename_i hknown
    simp only [Bool.and_eq_true, decide_eq_true_eq] at hknown
    have hcurrent : sketch.current = kind := by
      simpa using Kinds.allows_of_implies hknown.1 hfacts.kinds
    have hend : sketch.current ≠ .endOfInput := hcurrent ▸ hknown.2
    cases hforecast
    refine ⟨true, parse.take, sketch.take, facts.advance, ?_, ?_, List.mem_singleton.mpr rfl,
      hsketch.take hend, hfacts.advance hend⟩
    · rw [run_bump, if_pos (hsketch.current ▸ hcurrent)]
    · rw [read_bump, if_pos hcurrent]
  · cases hforecast

private theorem truthful_demand (kinds : List TokenKind) :
    Truthful grammar promises rank rules bound origin (.demand kinds) := by
  intro free facts outcomes base start parse sketch hforecast hsketch hfacts horigin hfree
  rw [forecast_demand] at hforecast
  split at hforecast
  · rename_i hknown
    have hcurrent : kinds.contains sketch.current = true := by
      rw [← Kinds.allows_among]
      exact Kinds.allows_of_implies hknown hfacts.kinds
    cases hforecast
    refine ⟨true, parse, sketch, facts, ?_, ?_, List.mem_singleton.mpr rfl, hsketch, hfacts⟩
    · rw [run_demand, if_pos (hsketch.current ▸ hcurrent)]
    · rw [read_demand, if_pos hcurrent]
  · cases hforecast

private theorem truthful_advance : Truthful grammar promises rank rules bound origin .advance := by
  intro free facts outcomes base start parse sketch hforecast hsketch hfacts horigin hfree
  rw [forecast_advance] at hforecast
  split at hforecast
  · rename_i hknown
    have hend : sketch.current ≠ .endOfInput := by
      simpa using Kinds.allows_of_implies hknown hfacts.kinds
    cases hforecast
    refine ⟨true, parse.take, sketch.take, facts.advance, rfl, ?_, List.mem_singleton.mpr rfl,
      hsketch.take hend, hfacts.advance hend⟩
    rw [read_advance, if_neg hend]
  · cases hforecast

private theorem truthful_ask (question : Lookahead) :
    Truthful grammar promises rank rules bound origin (.ask question) := by
  intro free facts outcomes base start parse sketch hforecast hsketch hfacts horigin hfree
  have hrun : run rules (.ask question) parse = (sketch.holds question, parse) := by
    rw [run_ask, hsketch.holds]
  suffices h : ∃ known, (sketch.holds question, known) ∈ outcomes ∧
      known.Hold base start parse sketch by
    obtain ⟨known, hmem, hhold⟩ := h
    exact ⟨_, parse, sketch, known, hrun, read_ask grammar sketch question, hmem, hsketch, hhold⟩
  cases question with
  | «at» kinds =>
    rw [forecast_at, Option.some_inj] at hforecast
    subst hforecast
    cases hholds : sketch.holds (.at kinds) with
    | true =>
      have hhold : (facts.narrow (.among kinds)).Hold base start parse sketch :=
        hfacts.narrow ((Kinds.allows_among _ _).trans hholds)
      exact ⟨_, Forecast.mem_prune_of_hold List.mem_cons_self hhold, hhold⟩
    | false =>
      have hnot : (Kinds.except kinds).allows sketch.current = true := by
        simpa [Sketch.holds] using hholds
      have hhold := hfacts.narrow hnot
      exact ⟨_, Forecast.mem_prune_of_hold (List.mem_cons_of_mem _ List.mem_cons_self) hhold,
        hhold⟩
  | atPair kinds second =>
    rw [forecast_atPair, Option.some_inj] at hforecast
    subst hforecast
    cases hholds : sketch.holds (.atPair kinds second) with
    | true =>
      simp only [Sketch.holds, Bool.and_eq_true, decide_eq_true_eq] at hholds
      have hnarrow : (facts.narrow (.among kinds)).Hold base start parse sketch :=
        hfacts.narrow ((Kinds.allows_among _ _).trans hholds.1)
      have hhold : Facts.Hold { facts.narrow (.among kinds) with second := some second }
          base start parse sketch := by
        refine ⟨hnarrow.kinds, ?_, hnarrow.moved, hnarrow.marked⟩
        intro kind hkind
        cases hkind
        exact hholds.2
      exact ⟨_, Forecast.mem_prune_of_hold List.mem_cons_self hhold, hhold⟩
    | false =>
      exact ⟨facts, Forecast.mem_prune_of_hold
        (List.mem_cons_of_mem _ List.mem_cons_self) hfacts, hfacts⟩

private theorem hold_enter {facts : Facts} {base : List Tree} {start : Sketch} {parse : Parse}
    {sketch : Sketch} (below : List Tree) (inner : Parse) (parts : List Tree)
    (h : facts.Hold base start parse sketch) :
    Facts.Hold { facts with marked := false } below start inner { sketch with parts } := by
  refine ⟨h.kinds, h.second, h.moved, ?_⟩
  intro hmarked
  cases hmarked

private theorem truthful_node {body : Script Rule} (label : Label)
    (hbody : Truthful grammar promises rank rules bound origin body) :
    Truthful grammar promises rank rules bound origin (.node label body) := by
  intro free facts outcomes base start parse sketch hforecast hsketch hfacts horigin hfree
  rw [forecast_node, Option.map_eq_some_iff] at hforecast
  obtain ⟨inner, hinner, rfl⟩ := hforecast
  have hends := hbody hinner hsketch.enter (hold_enter _ _ [] hfacts) horigin hfree
  rw [run_node, read_node]
  exact hends.completed label.resolve label.resolve_bareAll hsketch.flush.parts

private theorem truthful_wrap {body : Script Rule} (kind : NodeKind)
    (hbody : Truthful grammar promises rank rules bound origin body) :
    Truthful grammar promises rank rules bound origin (.wrap kind body) := by
  intro free facts outcomes base start parse sketch hforecast hsketch hfacts horigin hfree
  rw [forecast_wrap] at hforecast
  split at hforecast
  · rename_i hmarked
    rw [Option.map_eq_some_iff] at hforecast
    obtain ⟨inner, hinner, rfl⟩ := hforecast
    obtain ⟨part, above, hparts, hmark, hpart⟩ := hfacts.marked hmarked
    obtain ⟨top, htop, hbare⟩ := hsketch.parts
    have hsame : top ++ base = part :: above ++ base := by rw [← htop, hparts, List.cons_append]
    have htop' : top = part :: above := List.append_cancel_right hsame
    rw [htop', Tree.bareAll, hpart] at hbare
    simp only [Bool.false_eq_true, if_false] at hbare
    have hopen : Sketched (above ++ base) parse { sketch with parts := [part.bare] } := by
      refine ⟨hsketch.rest, ⟨[part], hparts, ?_⟩, hsketch.problems, hsketch.sound⟩
      rw [Tree.bareAll, hpart]
      rfl
    have hends := hbody hinner hopen (hold_enter _ _ [part.bare] hfacts) horigin hfree
    have hread : sketch = ⟨sketch.rest, part.bare :: Tree.bareAll above, sketch.problems⟩ := by
      rw [hbare]
    rw [run_wrap, hmark, hread, read_wrap]
    exact hends.completed (fun _ => kind) (fun _ => rfl) ⟨above, rfl, rfl⟩
  · cases hforecast

private theorem truthful_statement {body : Script Rule} (kind : NodeKind)
    (hbody : Truthful grammar promises rank rules bound origin body) :
    Truthful grammar promises rank rules bound origin (.statement kind body) := by
  intro free facts outcomes base start parse sketch hforecast hsketch hfacts horigin hfree
  rw [forecast_statement, Option.map_eq_some_iff] at hforecast
  obtain ⟨inner, hinner, rfl⟩ := hforecast
  have hbooked := hsketch.flush.errors_length
  have hends := (hbody hinner hsketch.enter (hold_enter _ _ [] hfacts) horigin hfree).finished
    parse.flush.errors.length
  obtain ⟨answer, next, after, last, hrun, hread, hmem, hnext, hlast⟩ := hends
  have hcount := hnext.errors_length
  have hclosed := Ends.completed
    (fun _ => if sketch.problems.length < after.problems.length then .error else kind)
    (fun _ => rfl) hsketch.flush.parts ⟨answer, next, after, last, rfl, rfl, hmem, hnext, hlast⟩
  obtain ⟨hanswer, hnextEq⟩ := Prod.mk.inj hrun
  rw [run_statement, read_statement]
  dsimp only
  rw [hnextEq, hcount, hbooked]
  rw [hbooked] at hread
  cases hmid : read grammar body { sketch with parts := [] } with
  | none => simp [hmid] at hread
  | some mid =>
    rw [hmid] at hread
    simp only [Option.bind_some, Option.some.injEq, Prod.mk.injEq] at hread
    rw [Option.bind_some, hread.2]
    exact hclosed

private theorem mem_stopped {outcomes : List Outcome} {facts : Facts} (moved : Bool)
    (h : (false, facts) ∈ outcomes) :
    (true, { facts with moved := moved || facts.moved }) ∈ stopped moved outcomes :=
  List.mem_map.mpr ⟨_, List.mem_filter.mpr ⟨h, rfl⟩, rfl⟩

private theorem of_steady {outcomes : List Outcome} {facts : Facts} {marked : Bool}
    (hsteady : steady marked outcomes = true) (h : (true, facts) ∈ outcomes) :
    facts.moved = true ∧ (marked = true → facts.marked = true) := by
  have := List.all_eq_true.mp hsteady _ h
  cases marked <;> simp_all

private theorem truthful_again {body : Script Rule} {marked : Bool} {again : List Outcome}
    {base : List Tree} {start : Sketch}
    (hbody : Truthful grammar promises rank rules bound origin body)
    (hagain : forecast promises rank bound true body ⟨.except [], none, false, marked⟩ = some again)
    (hsteady : steady marked again = true) (horigin : start.rest.length ≤ origin)
    {parse : Parse} {sketch : Sketch} (hsketch : Sketched base parse sketch)
    (hfacts : Facts.Hold ⟨.except [], none, true, marked⟩ base start parse sketch) :
    Ends base start (true, Action.iterate (run rules body) parse)
      (read grammar (.loop body) sketch) (stopped true again) := by
  induction hn : sketch.rest.length using Nat.strongRecOn generalizing parse sketch with
  | ind n ih =>
    have hmoved : sketch.rest.length < start.rest.length := hfacts.moved
    have hstart : Facts.Hold ⟨.except [], none, false, marked⟩ base sketch parse sketch :=
      ⟨hfacts.kinds, hfacts.second, rfl, hfacts.marked⟩
    obtain ⟨answer, next, after, facts, hrun, hread, hmem, hnext, hhold⟩ :=
      hbody hagain hsketch hstart (by omega) (fun _ => by omega)
    have hle := hhold.length_le
    rw [read_loop, hread, Option.bind_some]
    cases answer with
    | false =>
      refine ⟨true, next, after, _, ?_, rfl, mem_stopped true hmem, hnext, ?_⟩
      · rw [Action.iterate_no hrun]
      · refine ⟨hhold.kinds, hhold.second, ?_, hhold.marked⟩
        change after.rest.length < start.rest.length
        omega
    | true =>
      obtain ⟨htook, hmarked⟩ := of_steady hsteady hmem
      have hless := hhold.moved
      rw [if_pos htook] at hless
      dsimp only
      rw [Action.iterate_yes hrun (by rw [hnext.remaining, hsketch.remaining]; exact hless),
        if_pos rfl, if_pos hless]
      have hround : Facts.Hold ⟨.except [], none, true, marked⟩ base start next after := by
        refine ⟨Kinds.allows_except [] _, ?_, ?_, fun h => hhold.marked (hmarked h)⟩
        · intro kind hkind
          cases hkind
        · change after.rest.length < start.rest.length
          omega
      exact ih _ (hn ▸ hless) hnext hround rfl

private theorem truthful_loop {body : Script Rule}
    (hbody : Truthful grammar promises rank rules bound origin body) :
    Truthful grammar promises rank rules bound origin (.loop body) := by
  intro free facts outcomes base start parse sketch hforecast hsketch hfacts horigin hfree
  rw [forecast_loop, Option.bind_eq_some_iff] at hforecast
  obtain ⟨first, hfirst, hforecast⟩ := hforecast
  rw [Option.bind_eq_some_iff] at hforecast
  obtain ⟨again, hagain, hsteady⟩ := hforecast
  split at hsteady
  · rename_i hboth
    obtain ⟨hfirstSteady, hagainSteady⟩ := Bool.and_eq_true_iff.mp hboth
    cases hsteady
    have hle := hfacts.length_le
    have hmoved := hfacts.moved
    have hstart : Facts.Hold { facts with moved := false } base sketch parse sketch :=
      ⟨hfacts.kinds, hfacts.second, rfl, hfacts.marked⟩
    have hbefore : (free || facts.moved) = true → sketch.rest.length < origin := by
      intro h
      rcases Bool.or_eq_true_iff.mp h with hf | hm
      · have := hfree hf
        omega
      · rw [if_pos hm] at hmoved
        omega
    obtain ⟨answer, next, after, last, hrun, hread, hmem, hnext, hhold⟩ :=
      hbody hfirst hsketch hstart (by omega) hbefore
    rw [run_loop]
    cases answer with
    | false =>
      have hlast : Facts.Hold { last with moved := facts.moved || last.moved } base start
          next after := by
        refine ⟨hhold.kinds, hhold.second, ?_, hhold.marked⟩
        have hround := hhold.moved
        cases hf : facts.moved <;> cases hl : last.moved <;> simp_all
        omega
      refine ⟨true, next, after, _, ?_, ?_, Forecast.mem_prune_of_hold
        (List.mem_append_left _ (mem_stopped facts.moved hmem)) hlast, hnext, hlast⟩
      · rw [Action.iterate_no hrun]
      · rw [read_loop, hread]
        rfl
    | true =>
      obtain ⟨htook, _⟩ := of_steady hfirstSteady hmem
      have hless := hhold.moved
      rw [if_pos htook] at hless
      have hround : Facts.Hold ⟨.except [], none, true, facts.marked && steady true first⟩
          base start next after := by
        refine ⟨Kinds.allows_except [] _, ?_, ?_, ?_⟩
        · intro kind hkind
          cases hkind
        · change after.rest.length < start.rest.length
          omega
        · intro hmarked
          have hall := (Bool.and_eq_true_iff.mp hmarked).2
          exact hhold.marked ((of_steady hall hmem).2 rfl)
      obtain ⟨answer', next', after', last', hrun', hread', hmem', hnext', hlast'⟩ :=
        truthful_again hbody hagain hagainSteady horigin hnext hround
      refine ⟨answer', next', after', last', ?_, ?_, Forecast.mem_prune_of_hold
        (List.mem_append_right _ hmem') hlast', hnext', hlast'⟩
      · rw [← hrun', Action.iterate_yes hrun (by rw [hnext.remaining, hsketch.remaining]; exact hless)]
      · rw [read_loop, hread, Option.bind_some]
        dsimp only
        rw [if_pos rfl, if_pos hless, hread']
  · cases hsteady

/-- Every forecast is truthful if calls end as the rules promise. -/
theorem truthful (hcalls : CallsKept grammar promises rank rules bound origin)
    (script : Script Rule) : Truthful grammar promises rank rules bound origin script := by
  induction script with
  | answer value =>
    intro free facts outcomes base start parse sketch hforecast hsketch hfacts horigin hfree
    cases hforecast
    exact ⟨value, parse, sketch, facts, rfl, read_answer grammar sketch value,
      List.mem_singleton.mpr rfl, hsketch, hfacts⟩
  | bump kind => exact truthful_bump kind
  | demand kinds => exact truthful_demand kinds
  | advance => exact truthful_advance
  | report problem =>
    intro free facts outcomes base start parse sketch hforecast hsketch hfacts horigin hfree
    cases hforecast
    exact ⟨false, _, _, facts, rfl, read_report grammar sketch problem,
      List.mem_singleton.mpr rfl, hsketch.book problem, hfacts.book problem⟩
  | ask question => exact truthful_ask question
  | call rule => exact truthful_call hcalls rule
  | seq first second hfirst hsecond => exact truthful_seq hfirst hsecond
  | cond test yes no htest hyes hno => exact truthful_cond htest hyes hno
  | node label body hbody => exact truthful_node label hbody
  | wrap kind body hbody => exact truthful_wrap kind hbody
  | statement kind body hbody => exact truthful_statement kind hbody
  | loop body hbody => exact truthful_loop hbody

end Script

end Syntax

end QuantumScript
