import QuantumScript.Syntax.Grammar
/-!
# Faults

A fault is never forgotten. So a run that ends without one took no step that a sound grammar never
takes, nor did it reach the depth at which calls are cut off: run with more depth it is the same.
-/

namespace QuantumScript

namespace Syntax

namespace Parse

@[simp] theorem fault_flush (parse : Parse) : parse.flush.fault = parse.fault := by
  rw [flush, shiftWhile_eq]

private theorem fault_shift (parse : Parse) : parse.shift.fault = parse.fault := by
  unfold shift
  split <;> rfl

@[simp] theorem fault_take (parse : Parse) : parse.take.fault = parse.fault := by
  unfold take
  split
  · rfl
  · rw [fault_shift, fault_flush]

@[simp] theorem fault_skip (parse : Parse) : parse.skip.fault = parse.fault := by
  fun_induction skip parse with
  | case1 => rfl
  | case2 parse _ ih => rw [ih, fault_take]

@[simp] theorem fault_finishStatement (booked : Nat) (parse : Parse) :
    (parse.finishStatement booked).fault = parse.fault := by
  unfold finishStatement
  split
  · rfl
  · split
    · rw [fault_skip]
      rfl
    · rw [fault_skip]

private theorem fault_close (label : List Tree → NodeKind) (checkpoint : Nat) (parse : Parse)
    (h : parse.fault = true) : (parse.close label checkpoint).fault = true := by
  unfold close
  split
  · exact h
  · rfl

theorem fault_of_close {label : List Tree → NodeKind} {checkpoint : Nat} {parse : Parse}
    (h : (parse.close label checkpoint).fault = false) : parse.fault = false := by
  cases hfault : parse.fault with
  | false => rfl
  | true =>
    rw [fault_close label checkpoint parse hfault] at h
    cases h

end Parse

namespace Action

/-- The action does not forget a fault. -/
def Keeps (action : Action) : Prop := ∀ parse, parse.fault = true → (action parse).2.fault = true

/-- Where the action finds no fault, the other one does the same. -/
def Extends (action other : Action) : Prop :=
  ∀ parse, (action parse).2.fault = false → other parse = action parse

theorem Keeps.iterate {action : Action} (h : action.Keeps) (parse : Parse)
    (hfault : parse.fault = true) : (Action.iterate action parse).fault = true := by
  fun_induction Action.iterate action parse with
  | case1 parse next heq _ ih =>
    apply ih
    have := h parse hfault
    rwa [heq] at this
  | case2 => rfl
  | case3 parse next heq =>
    have := h parse hfault
    rwa [heq] at this

/-- A start without a fault stands before every run that ends without one. -/
theorem Keeps.before {action : Action} (h : action.Keeps) {parse : Parse}
    (hfault : (action parse).2.fault = false) : parse.fault = false := by
  cases hstart : parse.fault with
  | false => rfl
  | true =>
    rw [h parse hstart] at hfault
    cases hfault

/-- If no fault is met in all rounds, none is met in the first. -/
theorem Keeps.first {action : Action} (h : action.Keeps) {parse : Parse}
    (hfault : (Action.iterate action parse).fault = false) : (action parse).2.fault = false := by
  rw [Action.iterate] at hfault
  split at hfault
  · rename_i next heq
    rw [heq]
    split at hfault
    · cases hnext : next.fault with
      | false => rfl
      | true =>
        rw [h.iterate next hnext] at hfault
        cases hfault
    · cases hfault
  · rename_i next heq
    rw [heq]
    exact hfault

theorem Extends.iterate {action other : Action} (hkeeps : action.Keeps)
    (h : action.Extends other) (parse : Parse)
    (hfault : (Action.iterate action parse).fault = false) :
    Action.iterate other parse = Action.iterate action parse := by
  have hfirst := hkeeps.first hfault
  fun_induction Action.iterate action parse with
  | case1 parse next heq hless ih =>
    rw [Action.iterate_yes ((h parse hfirst).trans heq) hless]
    exact ih hfault (hkeeps.first hfault)
  | case2 => cases hfault
  | case3 parse next heq => exact Action.iterate_no ((h parse hfirst).trans heq)

end Action

namespace Script

variable {Rule : Type} {rules others : Rule → Action}

/-- No step of a script forgets a fault. -/
theorem run_keeps (hrules : ∀ rule, (rules rule).Keeps) (script : Script Rule) :
    (run rules script).Keeps := by
  induction script with
  | answer value => exact fun _ h => h
  | bump kind =>
    intro parse h
    simp only [run]
    split
    · simpa using h
    · rfl
  | demand kinds =>
    intro parse h
    simp only [run]
    split
    · exact h
    · rfl
  | advance =>
    intro parse h
    simpa only [run, Parse.fault_take] using h
  | report problem => exact fun _ h => h
  | ask question => exact fun _ h => h
  | call rule => exact hrules rule
  | seq first second hfirst hsecond => exact fun parse h => hsecond _ (hfirst parse h)
  | cond test yes no htest hyes hno =>
    intro parse h
    have hnext := htest parse h
    simp only [run]
    split
    · rename_i heq
      rw [heq] at hnext
      exact hyes _ hnext
    · rename_i heq
      rw [heq] at hnext
      exact hno _ hnext
  | node label body hbody =>
    intro parse h
    exact Parse.fault_close _ _ _ (hbody _ (by rw [Parse.fault_flush]; exact h))
  | wrap kind body hbody =>
    intro parse h
    exact Parse.fault_close _ _ _ (hbody parse h)
  | statement kind body hbody =>
    intro parse h
    refine Parse.fault_close _ _ _ ?_
    rw [Parse.fault_finishStatement]
    exact hbody _ (by rw [Parse.fault_flush]; exact h)
  | loop body hbody => exact fun parse h => Action.Keeps.iterate hbody parse h

/-- Where a run with `rules` finds no fault, a run with rules that extend them is the same. -/
theorem run_extends (hrules : ∀ rule, (rules rule).Keeps)
    (hothers : ∀ rule, (rules rule).Extends (others rule)) (script : Script Rule) :
    (run rules script).Extends (run others script) := by
  induction script with
  | answer value => exact fun _ _ => rfl
  | bump kind => exact fun _ _ => rfl
  | demand kinds => exact fun _ _ => rfl
  | advance => exact fun _ _ => rfl
  | report problem => exact fun _ _ => rfl
  | ask question => exact fun _ _ => rfl
  | call rule => exact hothers rule
  | seq first second hfirst hsecond =>
    intro parse h
    have hmid := (run_keeps hrules second).before h
    simp only [run]
    rw [hfirst parse hmid, hsecond _ h]
  | cond test yes no htest hyes hno =>
    intro parse h
    simp only [run] at h ⊢
    cases heq : run rules test parse with
    | mk answer next =>
      rw [heq] at h
      cases answer with
      | true =>
        have hnext := (run_keeps hrules yes).before h
        rw [htest parse (by rw [heq]; exact hnext), heq]
        exact hyes next h
      | false =>
        have hnext := (run_keeps hrules no).before h
        rw [htest parse (by rw [heq]; exact hnext), heq]
        exact hno next h
  | node label body hbody =>
    intro parse h
    simp only [run] at h ⊢
    rw [hbody _ (Parse.fault_of_close h)]
  | wrap kind body hbody =>
    intro parse h
    simp only [run] at h ⊢
    rw [hbody _ (Parse.fault_of_close h)]
  | statement kind body hbody =>
    intro parse h
    simp only [run] at h ⊢
    have hafter := Parse.fault_of_close h
    rw [Parse.fault_finishStatement] at hafter
    rw [hbody _ hafter]
  | loop body hbody =>
    intro parse h
    simp only [run] at h ⊢
    rw [hbody.iterate (run_keeps hrules body) parse h]

variable (grammar : Rule → Script Rule)

theorem runRule_keeps (depth : Nat) (rule : Rule) : (runRule grammar depth rule).Keeps := by
  induction depth generalizing rule with
  | zero => exact fun _ _ => rfl
  | succ depth ih => exact run_keeps ih (grammar rule)

/-- A run without a fault is the same with any greater depth. -/
theorem runRule_extends {depth deeper : Nat} (hle : depth ≤ deeper) (rule : Rule) :
    (runRule grammar depth rule).Extends (runRule grammar deeper rule) := by
  induction depth generalizing deeper rule with
  | zero =>
    intro parse h
    cases h
  | succ depth ih =>
    obtain ⟨deeper, rfl⟩ := Nat.exists_eq_add_of_le' (Nat.le_trans (Nat.succ_pos depth) hle)
    exact run_extends (runRule_keeps grammar depth)
      (fun other => ih (Nat.le_of_succ_le_succ hle) other) (grammar rule)

end Script

end Syntax

end QuantumScript
