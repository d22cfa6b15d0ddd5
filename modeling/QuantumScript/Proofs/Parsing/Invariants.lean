import QuantumScript.Syntax.Grammar
/-!
# Invariants of parses

A parse moves a token, books an error, makes a node or sets a fault. What each of these steps keeps is kept by
every script, whatever the grammar.
-/

namespace QuantumScript

namespace Syntax

namespace Parse

/-- The steps that finish no node keep what holds of a parse. -/
structure Stable (holds : Parse → Prop) : Prop where
  fail {parse : Parse} : holds parse → holds parse.fail
  shift {parse : Parse} : holds parse → holds parse.shift
  book {parse : Parse} (problem : Problem) : holds parse → holds (parse.book problem)

/-- Every single step of a parse keeps what holds of it. -/
structure Invariant (holds : Parse → Prop) : Prop extends Stable holds where
  close {parse : Parse} (label : List Tree → NodeKind) (checkpoint : Nat) :
    holds parse → holds (parse.close label checkpoint)

namespace Stable

variable {holds : Parse → Prop} {parse : Parse}

theorem shiftWhile (hinv : Stable holds) (p : Token → Bool) (h : holds parse) :
    holds (parse.shiftWhile p) := by
  unfold Parse.shiftWhile
  generalize parse.rest.takeWhile p = tokens
  induction tokens generalizing parse with
  | nil => exact h
  | cons token tokens ih => exact ih (hinv.shift h)

theorem flush (hinv : Stable holds) (h : holds parse) : holds parse.flush := hinv.shiftWhile _ h

theorem take (hinv : Stable holds) (h : holds parse) : holds parse.take := by
  unfold Parse.take
  split
  · exact h
  · exact hinv.shift (hinv.flush h)

theorem skip (hinv : Stable holds) (h : holds parse) : holds parse.skip := by
  fun_induction Parse.skip parse with
  | case1 => exact h
  | case2 parse _ ih => exact ih (hinv.take h)

theorem finishStatement (hinv : Stable holds) (booked : Nat) (h : holds parse) :
    holds (parse.finishStatement booked) := by
  unfold Parse.finishStatement
  split
  · exact h
  · split
    · exact hinv.skip (hinv.book _ h)
    · exact hinv.skip h

end Stable

end Parse

/-- The action keeps what holds of a parse. -/
def Action.Maintains (holds : Parse → Prop) (action : Action) : Prop :=
  ∀ parse, holds parse → holds (action parse).2

namespace Parse.Invariant

variable {holds : Parse → Prop}

theorem iterate (hinv : Invariant holds) {action : Action} (haction : action.Maintains holds) {parse : Parse}
    (h : holds parse) : holds (Action.iterate action parse) := by
  have hnext := haction _ h
  fun_induction Action.iterate action parse with
  | case1 parse next heq _ ih =>
    rw [heq] at hnext
    exact ih hnext (haction next hnext)
  | case2 parse next heq _ =>
    rw [heq] at hnext
    exact hinv.fail hnext
  | case3 parse next heq =>
    rw [heq] at hnext
    exact hnext

variable {Rule : Type} {rules : Rule → Action}

theorem run (hinv : Invariant holds) (hrules : ∀ rule, (rules rule).Maintains holds) (script : Script Rule) :
    (script.run rules).Maintains holds := by
  induction script with
  | answer value => exact fun _ h => h
  | bump kind =>
    intro parse h
    rw [Script.run_bump]
    split
    · exact hinv.take h
    · exact hinv.fail h
  | demand kinds =>
    intro parse h
    rw [Script.run_demand]
    split
    · exact h
    · exact hinv.fail h
  | advance => exact fun _ h => hinv.take h
  | report problem => exact fun _ h => hinv.book problem h
  | ask question => exact fun _ h => h
  | call rule => exact hrules rule
  | seq first second hfirst hsecond => exact fun parse h => hsecond _ (hfirst parse h)
  | cond test yes no htest hyes hno =>
    intro parse h
    rw [Script.run_cond]
    split
    · exact hyes _ (htest parse h)
    · exact hno _ (htest parse h)
  | node label body hbody =>
    intro parse h
    rw [Script.run_node]
    exact hinv.close _ _ (hbody _ (hinv.flush h))
  | wrap kind body hbody =>
    intro parse h
    rw [Script.run_wrap]
    exact hinv.close (fun _ => kind) parse.mark (hbody _ h)
  | statement kind body hbody =>
    intro parse h
    rw [Script.run_statement]
    have hafter := hinv.finishStatement parse.flush.errors.length (hbody _ (hinv.flush h))
    exact hinv.close (fun _ => _) parse.flush.parts.length hafter
  | loop body hbody => exact fun _ h => hinv.iterate hbody h

theorem runRule (hinv : Invariant holds) (grammar : Rule → Script Rule) (depth : Nat) (rule : Rule) :
    (Script.runRule grammar depth rule).Maintains holds := by
  induction depth generalizing rule with
  | zero => exact fun _ h => hinv.fail h
  | succ depth ih => exact hinv.run ih (grammar rule)

/-- What holds at the start holds when all tokens have been taken. -/
theorem parseTokens (hinv : Invariant holds) {tokens : List Token} (hstart : holds (.start tokens)) :
    holds (Syntax.parseTokens tokens) :=
  hinv.shiftWhile _ (hinv.run (hinv.runRule grammar _) Production.file _ hstart)

end Parse.Invariant

end Syntax

end QuantumScript
