import QuantumScript.Proofs.Parsing.Sketch
import QuantumScript.Proofs.Parsing.Lossless
/-!
# Derivations

A derivation shows how a strict reading got to its end, step by step. Laws of readings are inductions
over derivations, with one case for each form of script and two for a loop. What a reading takes from
the tokens ahead stands at the end of its leaves.
-/

namespace QuantumScript

namespace Syntax

namespace Sketch

/-- What reading takes: the tokens go from the front of the rest to the end of the leaves. Booked
problems stay. -/
structure Takes (sketch after : Sketch) (taken : List Token) : Prop where
  rest : sketch.rest = taken ++ after.rest
  leaves : Tree.leavesAll after.parts.reverse =
    Tree.leavesAll sketch.parts.reverse ++ taken.map Token.entry
  problems : ∃ more, after.problems = more ++ sketch.problems

namespace Takes

variable {sketch mid after : Sketch} {taken more : List Token}

theorem refl (sketch : Sketch) : sketch.Takes sketch [] :=
  ⟨rfl, (List.append_nil _).symm, [], rfl⟩

theorem trans (h : sketch.Takes mid taken) (hmore : mid.Takes after more) :
    sketch.Takes after (taken ++ more) := by
  obtain ⟨booked, hbooked⟩ := h.problems
  obtain ⟨later, hlater⟩ := hmore.problems
  refine ⟨?_, ?_, later ++ booked, ?_⟩
  · rw [h.rest, hmore.rest, List.append_assoc]
  · rw [hmore.leaves, h.leaves, List.map_append, List.append_assoc]
  · rw [hlater, hbooked, List.append_assoc]

theorem length_problems (h : sketch.Takes after taken) :
    sketch.problems.length ≤ after.problems.length := by
  obtain ⟨more, hmore⟩ := h.problems
  rw [hmore, List.length_append]
  exact Nat.le_add_left _ _

/-- What books no problem in the end books none in between. -/
theorem problems_split (h : sketch.Takes mid taken) (hmore : mid.Takes after more)
    (hlength : after.problems.length = sketch.problems.length) :
    mid.problems.length = sketch.problems.length ∧ after.problems.length = mid.problems.length := by
  have hfirst := h.length_problems
  have hsecond := hmore.length_problems
  omega

theorem book (sketch : Sketch) (problem : Problem) : sketch.Takes (sketch.book problem) [] :=
  ⟨rfl, (List.append_nil _).symm, [problem], rfl⟩

theorem take (rest : List Token) (token : Token) (parts : List Tree) (problems : List Problem) :
    Takes ⟨token :: rest, parts, problems⟩ (Sketch.take ⟨token :: rest, parts, problems⟩) [token] := by
  refine ⟨rfl, ?_, [], rfl⟩
  rw [Sketch.take, List.reverse_cons, Tree.leavesAll_append]
  rfl

theorem skip (sketch : Sketch) : sketch.Takes sketch.skip (sketch.rest.takeWhile goesOn) := by
  refine ⟨List.takeWhile_append_dropWhile.symm, ?_, [], rfl⟩
  rw [Sketch.skip, List.reverse_append, List.reverse_reverse, Tree.leavesAll_append]
  congr 1
  exact Tree.leavesAll_tokens _

/-- All that is left of a statement is taken, and a problem is booked if it is not nothing. -/
theorem finishStatement (sketch : Sketch) (booked : Nat) :
    ∃ taken, sketch.Takes (sketch.finishStatement booked) taken ∧
      ((sketch.finishStatement booked).problems.length = booked →
        sketch.finishStatement booked = sketch) := by
  unfold Sketch.finishStatement
  split
  · exact ⟨[], refl sketch, fun _ => rfl⟩
  · split
    · rename_i hbooked
      refine ⟨_, (book sketch _).trans (skip _), ?_⟩
      intro hlength
      simp [Sketch.skip, Sketch.book, hbooked] at hlength
    · rename_i hbooked
      refine ⟨_, skip sketch, ?_⟩
      intro hlength
      exact absurd hlength hbooked

/-- A node has the leaves of its parts. -/
theorem node (kind : NodeKind) (h : Takes { sketch with parts := [] } after taken) :
    sketch.Takes { after with parts := .node kind after.parts.reverse :: sketch.parts } taken := by
  refine ⟨h.rest, ?_, h.problems⟩
  have hleaves := h.leaves
  rw [List.reverse_nil] at hleaves
  rw [List.reverse_cons, Tree.leavesAll_append]
  simp only [Tree.leavesAll, Tree.leaves, hleaves, List.nil_append, List.append_nil]

theorem wrap (kind : NodeKind) {rest : List Token} {part : Tree} {parts : List Tree}
    {problems : List Problem} (h : Takes ⟨rest, [part], problems⟩ after taken) :
    Takes ⟨rest, part :: parts, problems⟩
      { after with parts := .node kind after.parts.reverse :: parts } taken := by
  refine ⟨h.rest, ?_, h.problems⟩
  have hleaves := h.leaves
  rw [List.reverse_singleton] at hleaves
  rw [List.reverse_cons, List.reverse_cons, Tree.leavesAll_append, Tree.leavesAll_append,
    List.append_assoc, ← hleaves]
  simp only [Tree.leavesAll, Tree.leaves, List.append_nil]

end Takes

end Sketch

namespace Script

variable {Rule : Type}

/-- A strict reading ends with the answer and the sketch. -/
inductive Reads (grammar : Rule → Script Rule) : Script Rule → Sketch → Bool → Sketch → Prop
  | answer (value : Bool) (sketch : Sketch) : Reads grammar (.answer value) sketch value sketch
  | bump {kind : TokenKind} {sketch : Sketch} (hcurrent : sketch.current = kind) :
      Reads grammar (.bump kind) sketch true sketch.take
  | demand {kinds : List TokenKind} {sketch : Sketch}
      (hcurrent : kinds.contains sketch.current = true) :
      Reads grammar (.demand kinds) sketch true sketch
  | advance {sketch : Sketch} (hcurrent : sketch.current ≠ .endOfInput) :
      Reads grammar .advance sketch true sketch.take
  | report (problem : Problem) (sketch : Sketch) :
      Reads grammar (.report problem) sketch false (sketch.book problem)
  | ask (question : Lookahead) (sketch : Sketch) :
      Reads grammar (.ask question) sketch (sketch.holds question) sketch
  | call {rule : Rule} {sketch after : Sketch} {answer : Bool}
      (hrule : Reads grammar (grammar rule) sketch answer after) :
      Reads grammar (.call rule) sketch answer after
  | seq {first second : Script Rule} {sketch mid after : Sketch} {ignored answer : Bool}
      (hfirst : Reads grammar first sketch ignored mid)
      (hsecond : Reads grammar second mid answer after) :
      Reads grammar (.seq first second) sketch answer after
  | yes {test yes no : Script Rule} {sketch mid after : Sketch} {answer : Bool}
      (htest : Reads grammar test sketch true mid) (hyes : Reads grammar yes mid answer after) :
      Reads grammar (.cond test yes no) sketch answer after
  | no {test yes no : Script Rule} {sketch mid after : Sketch} {answer : Bool}
      (htest : Reads grammar test sketch false mid) (hno : Reads grammar no mid answer after) :
      Reads grammar (.cond test yes no) sketch answer after
  | node {label : Label} {body : Script Rule} {sketch after : Sketch} {ignored : Bool}
      (hbody : Reads grammar body { sketch with parts := [] } ignored after) :
      Reads grammar (.node label body) sketch true
        { after with
          parts := .node (label.resolve after.parts.reverse) after.parts.reverse :: sketch.parts }
  | wrap {kind : NodeKind} {body : Script Rule} {rest : List Token} {part : Tree}
      {parts : List Tree} {problems : List Problem} {after : Sketch} {ignored : Bool}
      (hbody : Reads grammar body ⟨rest, [part], problems⟩ ignored after) :
      Reads grammar (.wrap kind body) ⟨rest, part :: parts, problems⟩ true
        { after with parts := .node kind after.parts.reverse :: parts }
  | statement {kind : NodeKind} {body : Script Rule} {sketch mid after : Sketch} {ignored : Bool}
      (hbody : Reads grammar body { sketch with parts := [] } ignored mid)
      (hafter : mid.finishStatement sketch.problems.length = after) :
      Reads grammar (.statement kind body) sketch true
        { after with
          parts := .node (if sketch.problems.length < after.problems.length then .error else kind)
            after.parts.reverse :: sketch.parts }
  | stop {body : Script Rule} {sketch after : Sketch}
      (hbody : Reads grammar body sketch false after) :
      Reads grammar (.loop body) sketch true after
  | round {body : Script Rule} {sketch mid after : Sketch} {answer : Bool}
      (hbody : Reads grammar body sketch true mid) (hless : mid.rest.length < sketch.rest.length)
      (hloop : Reads grammar (.loop body) mid answer after) :
      Reads grammar (.loop body) sketch answer after

/-- Every strict reading that has a result has a derivation. -/
theorem reads_of_read {grammar : Rule → Script Rule} {script : Script Rule} {sketch after : Sketch}
    {answer : Bool} (hread : read grammar script sketch = some (answer, after)) :
    Reads grammar script sketch answer after := by
  refine read.partial_correctness grammar
    (fun script sketch result => Reads grammar script sketch result.1 result.2)
    ?_ script sketch (answer, after) hread
  intro read ih script sketch ⟨answer, after⟩ hread
  cases script with
  | answer value =>
    cases hread
    exact .answer _ _
  | bump kind =>
    dsimp only at hread
    split at hread <;> cases hread
    exact .bump ‹_›
  | demand kinds =>
    dsimp only at hread
    split at hread <;> cases hread
    exact .demand ‹_›
  | advance =>
    dsimp only at hread
    split at hread <;> cases hread
    exact .advance ‹_›
  | report problem =>
    cases hread
    exact .report _ _
  | ask question =>
    cases hread
    exact .ask _ _
  | call rule => exact .call (ih _ _ _ hread)
  | seq first second =>
    obtain ⟨⟨_, mid⟩, hfirst, hsecond⟩ := Option.bind_eq_some_iff.mp hread
    exact .seq (ih _ _ _ hfirst) (ih _ _ _ hsecond)
  | cond test yes no =>
    obtain ⟨⟨way, mid⟩, htest, hbranch⟩ := Option.bind_eq_some_iff.mp hread
    cases way with
    | true => exact .yes (ih _ _ _ htest) (ih _ _ _ hbranch)
    | false => exact .no (ih _ _ _ htest) (ih _ _ _ hbranch)
  | node label body =>
    obtain ⟨⟨_, mid⟩, hbody, hclose⟩ := Option.bind_eq_some_iff.mp hread
    cases hclose
    exact .node (ih _ _ _ hbody)
  | wrap kind body =>
    obtain ⟨rest, parts, problems⟩ := sketch
    cases parts with
    | nil => cases hread
    | cons part parts =>
      obtain ⟨⟨_, mid⟩, hbody, hclose⟩ := Option.bind_eq_some_iff.mp hread
      cases hclose
      exact .wrap (ih _ _ _ hbody)
  | statement kind body =>
    obtain ⟨⟨_, mid⟩, hbody, hclose⟩ := Option.bind_eq_some_iff.mp hread
    cases hclose
    exact .statement (ih _ _ _ hbody) rfl
  | loop body =>
    obtain ⟨⟨way, mid⟩, hbody, hloop⟩ := Option.bind_eq_some_iff.mp hread
    cases way with
    | false =>
      cases hloop
      exact .stop (ih _ _ _ hbody)
    | true =>
      dsimp only at hloop
      rw [if_pos rfl] at hloop
      split at hloop
      · exact .round (ih _ _ _ hbody) ‹_› (ih _ _ _ hloop)
      · cases hloop

end Script

end Syntax

end QuantumScript
