import QuantumScript.Proofs.Seams.Layouts
import QuantumScript.Proofs.Parsing.Faults
/-!
# Two runs side by side

A relation between two parses is carried through two runs of one script. The rules follow the forms of
scripts: a relation before the script and one after it, for each answer, that both runs give. Only runs
that end without a fault count, so that no step need be shown to find its token.
-/

namespace QuantumScript

namespace Syntax

/-- From related parses the action gives one answer and comes to related parses, unless the first run
ends with a fault. -/
def Action.Pairs (before : Parse → Parse → Prop) (after : Bool → Parse → Parse → Prop)
    (action : Action) : Prop :=
  ∀ p q, before p q → (action p).2.fault = false →
    (action q).1 = (action p).1 ∧ after (action p).1 (action p).2 (action q).2

namespace Action.Pairs

variable {before : Parse → Parse → Prop} {after : Bool → Parse → Parse → Prop} {action : Action}

theorem weaken (h : Pairs before after action) {stronger : Parse → Parse → Prop}
    {weaker : Bool → Parse → Parse → Prop} (hbefore : ∀ p q, stronger p q → before p q)
    (hafter : ∀ answer p q, after answer p q → weaker answer p q) :
    Pairs stronger weaker action := by
  intro p q hpair hfault
  obtain ⟨hanswer, hnext⟩ := h p q (hbefore p q hpair) hfault
  exact ⟨hanswer, hafter _ _ _ hnext⟩

theorem of_imp (h : Pairs before after action) {weaker : Bool → Parse → Parse → Prop}
    (hafter : ∀ answer p q, after answer p q → weaker answer p q) : Pairs before weaker action :=
  h.weaken (fun _ _ => id) hafter

theorem iterate {invariant : Parse → Parse → Prop} {more : Nat}
    {after : Parse → Parse → Prop} (hkeeps : action.Keeps)
    (hremaining : ∀ p q, invariant p q → q.remaining = p.remaining + more)
    (hbody : Pairs invariant (fun answer => if answer then invariant else after) action)
    {p q : Parse} (hpair : invariant p q) (hfault : (Action.iterate action p).fault = false) :
    after (Action.iterate action p) (Action.iterate action q) := by
  have hfirst := hkeeps.first hfault
  fun_induction Action.iterate action p generalizing q with
  | case1 p next heq hless ih =>
    obtain ⟨hanswer, hround⟩ := hbody p q hpair hfirst
    cases hother : action q with
    | mk answer later =>
      rw [heq, hother] at hanswer hround
      obtain rfl : answer = true := hanswer
      have hbefore := hremaining p q hpair
      have hafter := hremaining next later hround
      rw [Action.iterate_yes hother (by omega)]
      exact ih hround hfault (hkeeps.first hfault)
  | case2 => cases hfault
  | case3 p next heq =>
    obtain ⟨hanswer, hround⟩ := hbody p q hpair hfirst
    cases hother : action q with
    | mk answer later =>
      rw [heq, hother] at hanswer hround
      obtain rfl : answer = false := hanswer
      rw [Action.iterate_no hother]
      exact hround

end Action.Pairs

namespace Script

variable {Rule : Type} {rules : Rule → Action} {before : Parse → Parse → Prop}
  {after : Bool → Parse → Parse → Prop}

section Forms

variable (hkeeps : ∀ rule, (rules rule).Keeps)
include hkeeps

theorem pairs_seq {middle : Bool → Parse → Parse → Prop} {first second : Script Rule}
    (hfirst : Action.Pairs before middle (run rules first))
    (hsecond : ∀ answer, Action.Pairs (middle answer) after (run rules second)) :
    Action.Pairs before after (run rules (.seq first second)) := by
  intro p q hpair hfault
  have hmiddle := (run_keeps hkeeps second).before hfault
  obtain ⟨_, hnext⟩ := hfirst p q hpair hmiddle
  exact hsecond _ _ _ hnext hfault

theorem pairs_cond {middle : Bool → Parse → Parse → Prop} {test yes no : Script Rule}
    (htest : Action.Pairs before middle (run rules test))
    (hyes : Action.Pairs (middle true) after (run rules yes))
    (hno : Action.Pairs (middle false) after (run rules no)) :
    Action.Pairs before after (run rules (.cond test yes no)) := by
  intro p q hpair hfault
  rw [run_cond] at hfault ⊢
  rw [run_cond]
  cases hanswer : (run rules test p).1 with
  | true =>
    rw [hanswer, if_pos rfl] at hfault
    obtain ⟨hsame, hnext⟩ := htest p q hpair ((run_keeps hkeeps yes).before hfault)
    rw [hsame, hanswer, if_pos rfl, if_pos rfl]
    rw [hanswer] at hnext
    exact hyes _ _ hnext hfault
  | false =>
    rw [hanswer, if_neg Bool.false_ne_true] at hfault
    obtain ⟨hsame, hnext⟩ := htest p q hpair ((run_keeps hkeeps no).before hfault)
    rw [hsame, hanswer, if_neg Bool.false_ne_true, if_neg Bool.false_ne_true]
    rw [hanswer] at hnext
    exact hno _ _ hnext hfault

theorem pairs_loop {more : Nat} {body : Script Rule}
    (hremaining : ∀ p q, before p q → q.remaining = p.remaining + more)
    (hbody : Action.Pairs before (fun answer => if answer then before else after true)
      (run rules body)) :
    Action.Pairs before after (run rules (.loop body)) := by
  intro p q hpair hfault
  exact ⟨rfl, hbody.iterate (run_keeps hkeeps body) hremaining hpair hfault⟩

end Forms

end Script

/-- What one parse has more than another: tokens ahead, finished parts below its own, and errors. -/
structure Surplus where
  tail : List Token
  base : List Tree
  errors : Nat
  solid : ∀ first ∈ tail.head?, first.isTrivia = false

/-- The second parse is the first one with a surplus. -/
structure Beside (surplus : Surplus) (p q : Parse) : Prop where
  rest : q.rest = p.rest ++ surplus.tail
  parts : q.parts = p.parts ++ surplus.base
  errors : q.errors.length = p.errors.length + surplus.errors
  fault : q.fault = p.fault

namespace Beside

variable {surplus : Surplus} {p q : Parse}

private theorem takeWhile_append {α : Type} {f : α → Bool} {others : List α}
    (h : ∀ first ∈ others.head?, f first = false) (xs : List α) :
    (xs ++ others).takeWhile f = xs.takeWhile f := by
  induction xs with
  | nil =>
    cases others with
    | nil => rfl
    | cons first others => rw [List.nil_append, List.takeWhile_cons_of_neg (by simp [h first rfl])]; rfl
  | cons x xs ih => rw [List.cons_append, List.takeWhile_cons, List.takeWhile_cons, ih]

private theorem dropWhile_append {α : Type} {f : α → Bool} {others : List α}
    (h : ∀ first ∈ others.head?, f first = false) (xs : List α) :
    (xs ++ others).dropWhile f = xs.dropWhile f ++ others := by
  induction xs with
  | nil =>
    cases others with
    | nil => rfl
    | cons first others => rw [List.nil_append, List.dropWhile_cons_of_neg (by simp [h first rfl])]; rfl
  | cons x xs ih =>
    rw [List.cons_append, List.dropWhile_cons, List.dropWhile_cons, ih]
    split <;> rfl

theorem flush (h : Beside surplus p q) : Beside surplus p.flush q.flush := by
  rw [Parse.flush, Parse.flush, Parse.shiftWhile_eq, Parse.shiftWhile_eq]
  refine ⟨?_, ?_, h.errors, h.fault⟩
  · dsimp only
    rw [h.rest, dropWhile_append surplus.solid]
  · dsimp only
    rw [h.rest, takeWhile_append surplus.solid, h.parts, List.append_assoc]

theorem book (problem : Problem) (h : Beside surplus p q) :
    Beside surplus (p.book problem) (q.book problem) := by
  refine ⟨h.rest, h.parts, ?_, h.fault⟩
  have := h.errors
  simp only [Parse.book, List.length_cons]
  omega

theorem shift (h : Beside surplus p q) (hne : p.rest ≠ []) :
    Beside surplus p.shift q.shift := by
  obtain ⟨token, rest, hrest⟩ := List.exists_cons_of_ne_nil hne
  have hrest' := h.rest
  rw [hrest, List.cons_append] at hrest'
  rw [Parse.shift, Parse.shift, hrest, hrest']
  refine ⟨rfl, ?_, h.errors, h.fault⟩
  dsimp only
  rw [h.parts, List.cons_append]

theorem close (label : List Tree → NodeKind) (checkpoint : Nat) (h : Beside surplus p q) :
    Beside surplus (p.close label checkpoint)
      (q.close label (checkpoint + surplus.base.length)) := by
  have hlength : q.parts.length = p.parts.length + surplus.base.length := by
    rw [h.parts, List.length_append]
  unfold Parse.close
  by_cases hle : checkpoint ≤ p.parts.length
  · have hcount : q.parts.length - (checkpoint + surplus.base.length) = p.parts.length - checkpoint := by
      omega
    have htake : p.parts.length - checkpoint ≤ p.parts.length := Nat.sub_le _ _
    rw [if_pos hle, if_pos (by omega)]
    refine ⟨h.rest, ?_, h.errors, h.fault⟩
    dsimp only
    rw [hcount, h.parts, List.take_append_of_le_length htake, List.drop_append_of_le_length htake,
      List.cons_append]
  · rw [if_neg hle, if_neg (by omega)]
    exact ⟨h.rest, h.parts, h.errors, rfl⟩

theorem remaining (h : Beside surplus p q) :
    q.remaining = p.remaining + (Token.significant surplus.tail).length := by
  unfold Parse.remaining
  rw [h.rest, List.countP_append, Token.significant, List.countP_eq_length_filter (l := surplus.tail)]

end Beside

end Syntax

end QuantumScript
