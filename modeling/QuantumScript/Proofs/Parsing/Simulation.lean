import QuantumScript.Proofs.Seams.Paths
/-!
# Simulations of parses

Two parses go the same way as long as they see the same kinds of tokens and have booked the same number
of errors. A relation between parses that says so, and that every single step keeps, is kept by all
scripts.
-/

namespace QuantumScript

namespace Syntax

/-- Related parses see the same kinds of tokens, and each single step leads to related parses. -/
structure Simulation (Alike : Parse → Parse → Prop) : Prop where
  kinds {p q : Parse} : Alike p q →
    (Token.significant q.rest).map Token.kind = (Token.significant p.rest).map Token.kind
  booked {p q : Parse} : Alike p q → q.errors.length = p.errors.length
  fail {p q : Parse} : Alike p q → Alike p.fail q.fail
  flush {p q : Parse} : Alike p q → Alike p.flush q.flush
  take {p q : Parse} : Alike p q → p.current ≠ .endOfInput → Alike p.take q.take
  book {p q : Parse} (problem : Problem) : Alike p q → Alike (p.book problem) (q.book problem)
  /-- An unexpected token is booked with its text. -/
  unexpected {p q : Parse} : Alike p q →
    Alike (p.book (.unexpected p.currentText)) (q.book (.unexpected q.currentText))
  /-- A node that began at related parses. -/
  close {before first p q : Parse} (label : Label) : Alike before first → Alike p q →
    Alike (p.close label.resolve before.parts.length) (q.close label.resolve first.parts.length)
  /-- A node that begins with the node completed last. -/
  wrap {before first p q : Parse} (kind : NodeKind) : Alike before first → Alike p q →
    Alike (p.close (fun _ => kind) before.mark) (q.close (fun _ => kind) first.mark)

/-- From related parses the action gives the same answer and leads to related parses. -/
def Action.Follows (Alike : Parse → Parse → Prop) (action : Action) : Prop :=
  ∀ p q, Alike p q → (action q).1 = (action p).1 ∧ Alike (action p).2 (action q).2

namespace Simulation

private theorem nextKind_eq (tokens : List Token) :
    Token.nextKind tokens = ((tokens.map Token.kind).head?).getD .endOfInput := by
  cases tokens <;> rfl

private theorem secondKind_eq (tokens : List Token) :
    Token.secondKind tokens = ((tokens.map Token.kind)[1]?).getD .endOfInput := by
  match tokens with
  | [] => rfl
  | [_] => rfl
  | _ :: _ :: _ => rfl

private theorem skip_ends {parse : Parse} (h : Parse.statementEnds.contains parse.current = true) :
    parse.skip = parse := by
  rw [Parse.skip, dif_pos h]

private theorem skip_goes {parse : Parse} (h : ¬Parse.statementEnds.contains parse.current = true) :
    parse.skip = parse.take.skip := by
  conv => lhs; rw [Parse.skip, dif_neg h]

variable {Alike : Parse → Parse → Prop} (sim : Simulation Alike) {p q : Parse}
include sim

theorem current (h : Alike p q) : q.current = p.current := by
  rw [Parse.current_eq, Parse.current_eq, nextKind_eq, nextKind_eq, sim.kinds h]

theorem second (h : Alike p q) : q.second = p.second := by
  rw [Parse.second_eq, Parse.second_eq, secondKind_eq, secondKind_eq, sim.kinds h]

theorem holds (h : Alike p q) (question : Lookahead) : question.holds q = question.holds p := by
  cases question <;> simp only [Lookahead.holds, sim.current h, sim.second h]

theorem remaining (h : Alike p q) : q.remaining = p.remaining := by
  have hlength := congrArg List.length (sim.kinds h)
  rw [List.length_map, List.length_map] at hlength
  rw [Parse.remaining, Parse.remaining, List.countP_eq_length_filter, List.countP_eq_length_filter]
  exact hlength

private theorem take_any (h : Alike p q) : Alike p.take q.take := by
  by_cases hend : p.current = .endOfInput
  · have hend' : q.current = .endOfInput := (sim.current h).trans hend
    rw [Parse.take, Parse.take, if_pos hend, if_pos hend']
    exact h
  · exact sim.take h hend

theorem skip (h : Alike p q) : Alike p.skip q.skip := by
  induction p using Parse.skip.induct generalizing q with
  | case1 p hends =>
    have hends' : Parse.statementEnds.contains q.current = true := (sim.current h).symm ▸ hends
    rw [skip_ends hends, skip_ends hends']
    exact h
  | case2 p hends ih =>
    have hends' : ¬Parse.statementEnds.contains q.current = true := (sim.current h).symm ▸ hends
    rw [skip_goes hends, skip_goes hends']
    exact ih (sim.take_any h)

theorem finishStatement (booked : Nat) (h : Alike p q) :
    Alike (p.finishStatement booked) (q.finishStatement booked) := by
  rw [Parse.finishStatement, Parse.finishStatement, sim.current h, sim.booked h]
  split
  · exact h
  · split
    · exact sim.skip (sim.unexpected h)
    · exact sim.skip h

theorem iterate {action : Action} (haction : action.Follows Alike) (h : Alike p q) :
    Alike (Action.iterate action p) (Action.iterate action q) := by
  fun_induction Action.iterate action p generalizing q with
  | case1 p next heq hless ih =>
    obtain ⟨hanswer, hnext⟩ := haction p q h
    rw [heq] at hanswer hnext
    have hother : action q = (true, (action q).2) := Prod.ext hanswer rfl
    have hless' : (action q).2.remaining < q.remaining := by
      rw [sim.remaining hnext, sim.remaining h]
      exact hless
    rw [Action.iterate_yes hother hless']
    exact ih hnext
  | case2 p next heq hless =>
    obtain ⟨hanswer, hnext⟩ := haction p q h
    rw [heq] at hanswer hnext
    have hother : action q = (true, (action q).2) := Prod.ext hanswer rfl
    have hless' : ¬(action q).2.remaining < q.remaining := by
      rw [sim.remaining hnext, sim.remaining h]
      exact hless
    rw [Action.iterate, hother]
    dsimp only
    rw [if_neg hless']
    exact sim.fail hnext
  | case3 p next heq =>
    obtain ⟨hanswer, hnext⟩ := haction p q h
    rw [heq] at hanswer hnext
    have hother : action q = (false, (action q).2) := Prod.ext hanswer rfl
    rw [Action.iterate_no hother]
    exact hnext

/-- A script keeps the relation if the rules that it calls do. The induction is on the script. -/
theorem run {Rule : Type} {rules : Rule → Action} (hrules : ∀ rule, (rules rule).Follows Alike)
    (script : Script Rule) : Action.Follows Alike (Script.run rules script) := by
  induction script with
  | answer value => exact fun _ _ h => ⟨rfl, h⟩
  | bump kind =>
    intro p q h
    rw [Script.run_bump, Script.run_bump, sim.current h]
    split
    · exact ⟨rfl, sim.take_any h⟩
    · exact ⟨rfl, sim.fail h⟩
  | demand kinds =>
    intro p q h
    rw [Script.run_demand, Script.run_demand, sim.current h]
    split
    · exact ⟨rfl, h⟩
    · exact ⟨rfl, sim.fail h⟩
  | advance => exact fun _ _ h => ⟨rfl, sim.take_any h⟩
  | report problem => exact fun _ _ h => ⟨rfl, sim.book problem h⟩
  | ask question => exact fun _ _ h => ⟨sim.holds h question, h⟩
  | call rule => exact hrules rule
  | seq first second hfirst hsecond => exact fun p q h => hsecond _ _ (hfirst p q h).2
  | cond test yes no htest hyes hno =>
    intro p q h
    obtain ⟨hanswer, hnext⟩ := htest p q h
    rw [Script.run_cond, Script.run_cond, hanswer]
    split
    · exact hyes _ _ hnext
    · exact hno _ _ hnext
  | node label body hbody =>
    intro p q h
    have hbefore := sim.flush h
    exact ⟨rfl, sim.close label hbefore (hbody _ _ hbefore).2⟩
  | wrap kind body hbody => exact fun p q h => ⟨rfl, sim.wrap kind h (hbody p q h).2⟩
  | statement kind body hbody =>
    intro p q h
    have hbefore := sim.flush h
    rw [Script.run_statement, Script.run_statement, sim.booked hbefore]
    have hafter := sim.finishStatement p.flush.errors.length (hbody _ _ hbefore).2
    dsimp only
    rw [sim.booked hafter]
    exact ⟨rfl, sim.close (.always _) hbefore hafter⟩
  | loop body hbody => exact fun p q h => ⟨rfl, sim.iterate hbody h⟩

theorem runRule {Rule : Type} (grammar : Rule → Script Rule) (depth : Nat) (rule : Rule) :
    Action.Follows Alike (Script.runRule grammar depth rule) := by
  induction depth generalizing rule with
  | zero => exact fun _ _ h => ⟨rfl, sim.fail h⟩
  | succ depth ih => exact sim.run ih (grammar rule)

end Simulation

end Syntax

end QuantumScript
