import QuantumScript.Proofs.Seams.Pairs
/-!
# Runs over the same tokens

Two parses go along a path if they are beside each other and the significant tokens ahead of the first
are of a certain shape. While the first has a token ahead, both see the same token, whatever the second
has behind it. There is one rule for each form of script.
-/

namespace QuantumScript

namespace Syntax

namespace Parse

theorem current_eq (parse : Parse) : parse.current = Token.nextKind (Token.significant parse.rest) := by
  rw [Token.significant_eq, current, ahead]
  cases parse.rest.dropWhile Token.isTrivia <;> rfl

theorem second_eq (parse : Parse) :
    parse.second = Token.secondKind (Token.significant parse.rest) := by
  rw [Token.significant_eq, second, ahead]
  cases parse.rest.dropWhile Token.isTrivia with
  | nil => rfl
  | cons token tokens =>
    dsimp only [Token.secondKind]
    rw [Token.significant_eq]
    cases tokens.dropWhile Token.isTrivia <;> rfl

theorem currentText_eq (parse : Parse) :
    parse.currentText = ((Token.significant parse.rest).head?.map Token.text).getD [] := by
  rw [Token.significant_eq, currentText, ahead]
  cases parse.rest.dropWhile Token.isTrivia <;> rfl

theorem significant_flush (parse : Parse) :
    Token.significant parse.flush.rest = Token.significant parse.rest := by
  rw [flush, shiftWhile_eq]
  exact Token.significant_dropWhile parse.rest

@[simp] theorem mark_flush (parse : Parse) : parse.flush.mark = parse.mark := by
  rw [flush, shiftWhile_eq]

@[simp] theorem mark_shift (parse : Parse) : parse.shift.mark = parse.mark := by
  unfold shift
  split <;> rfl

/-- What is left when the next significant token has been taken. -/
theorem flush_rest_of_significant {parse : Parse} {token : Token} {tokens : List Token}
    (h : Token.significant parse.rest = token :: tokens) :
    ∃ rest, parse.flush.rest = token :: rest ∧ Token.significant rest = tokens := by
  have hflush : parse.flush.rest = parse.rest.dropWhile Token.isTrivia := by
    rw [flush, shiftWhile_eq]
  rw [Token.significant_eq] at h
  rw [hflush]
  cases hrest : parse.rest.dropWhile Token.isTrivia with
  | nil =>
    rw [hrest] at h
    cases h
  | cons first rest =>
    rw [hrest] at h
    obtain ⟨rfl, hrest⟩ := List.cons.inj h
    exact ⟨rest, rfl, hrest⟩

theorem take_eq {parse : Parse} {token : Token} {tokens : List Token}
    (h : Token.significant parse.rest = token :: tokens) (hkind : token.kind ≠ .endOfInput) :
    parse.take = parse.flush.shift ∧ Token.significant parse.take.rest = tokens := by
  have hcurrent : parse.current ≠ .endOfInput := by
    rw [current_eq, h]
    exact hkind
  obtain ⟨rest, hrest, hsignificant⟩ := flush_rest_of_significant h
  rw [take, if_neg hcurrent]
  refine ⟨rfl, ?_⟩
  rw [shift, hrest]
  exact hsignificant

end Parse

/-- The parses are beside each other, and the tokens ahead of the first one are of a certain shape. If
they are `marked`, nodes that are wrapped begin at the same part. -/
structure Along (surplus : Surplus) (marked : Bool) (shape : List Token → Prop) (p q : Parse) : Prop
    extends Beside surplus p q where
  mark : marked = true → q.mark = p.mark + surplus.base.length
  shape : shape (Token.significant p.rest)

namespace Along

variable {surplus : Surplus} {marked : Bool} {shape other : List Token → Prop} {p q : Parse}

theorem of_imp (h : Along surplus marked shape p q) (himp : ∀ tokens, shape tokens → other tokens) :
    Along surplus marked other p q := ⟨h.toBeside, h.mark, himp _ h.shape⟩

theorem current (h : Along surplus marked shape p q) (hsees : shape [] → surplus.tail = []) :
    q.current = p.current := by
  have hshape := h.shape
  rw [Parse.current_eq, Parse.current_eq, h.rest, Token.significant_append]
  cases hrest : Token.significant p.rest with
  | nil =>
    rw [hrest] at hshape
    rw [hsees hshape]
    rfl
  | cons token tokens => rfl

theorem currentText (h : Along surplus marked shape p q) (hsees : shape [] → surplus.tail = []) :
    q.currentText = p.currentText := by
  have hshape := h.shape
  rw [Parse.currentText_eq, Parse.currentText_eq, h.rest, Token.significant_append]
  cases hrest : Token.significant p.rest with
  | nil =>
    rw [hrest] at hshape
    rw [hsees hshape]
    rfl
  | cons token tokens => rfl

theorem flush (h : Along surplus marked shape p q) : Along surplus marked shape p.flush q.flush := by
  refine ⟨h.toBeside.flush, ?_, ?_⟩
  · rw [Parse.mark_flush, Parse.mark_flush]
    exact h.mark
  · rw [Parse.significant_flush]
    exact h.shape

theorem take (h : Along surplus marked shape p q) {token : Token} {tokens : List Token}
    (hrest : Token.significant p.rest = token :: tokens) (hkind : token.kind ≠ .endOfInput)
    (hother : other tokens) : Along surplus marked other p.take q.take := by
  have hrest' : Token.significant q.rest = token :: (tokens ++ Token.significant surplus.tail) := by
    rw [h.rest, Token.significant_append, hrest, List.cons_append]
  obtain ⟨htake, hnext⟩ := Parse.take_eq hrest hkind
  obtain ⟨rest, hflush, _⟩ := Parse.flush_rest_of_significant hrest
  have hne : p.flush.rest ≠ [] := by
    rw [hflush]
    exact List.cons_ne_nil _ _
  have hbeside := (h.toBeside.flush).shift hne
  rw [← hnext] at hother
  refine ⟨?_, ?_, hother⟩
  · rw [htake, (Parse.take_eq hrest' hkind).1]
    exact hbeside
  · rw [htake, (Parse.take_eq hrest' hkind).1, Parse.mark_shift, Parse.mark_shift,
      Parse.mark_flush, Parse.mark_flush]
    exact h.mark

theorem book (problem : Problem) (h : Along surplus marked shape p q) :
    Along surplus marked shape (p.book problem) (q.book problem) :=
  ⟨h.toBeside.book problem, h.mark, h.shape⟩

theorem close (label : List Tree → NodeKind) {checkpoint place : Nat}
    (hplace : place = checkpoint + surplus.base.length) (h : Along surplus marked shape p q)
    (hfault : (p.close label checkpoint).fault = false) :
    Along surplus true shape (p.close label checkpoint) (q.close label place) := by
  have hbeside := h.toBeside.close label checkpoint
  rw [← hplace] at hbeside
  have hrest : (p.close label checkpoint).rest = p.rest := by
    unfold Parse.close
    split <;> rfl
  refine ⟨hbeside, fun _ => ?_, hrest ▸ h.shape⟩
  have hlength : q.parts.length = p.parts.length + surplus.base.length := by
    rw [h.parts, List.length_append]
  unfold Parse.close at hfault ⊢
  by_cases hle : checkpoint ≤ p.parts.length
  · rw [if_pos hle, if_pos (by omega)]
    exact hplace
  · rw [if_neg hle] at hfault
    cases hfault

private theorem unmark (h : Along surplus true shape p q) : Along surplus marked shape p q :=
  ⟨h.toBeside, fun _ => h.mark rfl, h.shape⟩

theorem skip (hsees : shape [] → surplus.tail = [])
    (htakes : ∀ token tokens, shape (token :: tokens) → token.kind ∉ Parse.statementEnds →
      shape tokens)
    (h : Along surplus marked shape p q) :
    Along surplus marked (fun tokens => shape tokens ∧ Token.nextKind tokens ∈ Parse.statementEnds)
      p.skip q.skip := by
  fun_induction Parse.skip p generalizing q with
  | case1 p hends =>
    rw [Parse.skip, h.current hsees, dif_pos hends]
    rw [Parse.current_eq] at hends
    exact ⟨h.toBeside, h.mark, h.shape, by simpa using hends⟩
  | case2 p hends ih =>
    have hskip : q.skip = q.take.skip := by
      rw [Parse.skip, h.current hsees, dif_neg hends]
    rw [Parse.current_eq] at hends
    have hshape := h.shape
    cases hrest : Token.significant p.rest with
    | nil =>
      rw [hrest] at hends
      exact absurd rfl hends
    | cons token tokens =>
      rw [hrest] at hends hshape
      have hnot : token.kind ∉ Parse.statementEnds := by simpa [Token.nextKind] using hends
      have hkind : token.kind ≠ .endOfInput := by
        intro hend
        rw [hend] at hnot
        exact hnot (by decide)
      rw [hskip]
      exact ih (h.take hrest hkind (htakes token tokens hshape hnot))

theorem finishStatement {booked count : Nat} (hcount : count = booked + surplus.errors)
    (hsees : shape [] → surplus.tail = [])
    (htakes : ∀ token tokens, shape (token :: tokens) → token.kind ∉ Parse.statementEnds →
      shape tokens)
    (h : Along surplus marked shape p q) :
    Along surplus marked (fun tokens => shape tokens ∧ Token.nextKind tokens ∈ Parse.statementEnds)
      (p.finishStatement booked) (q.finishStatement count) := by
  have hcurrent := h.current hsees
  unfold Parse.finishStatement
  rw [hcurrent]
  by_cases hends : Parse.statementEnds.contains p.current = true
  · rw [if_pos hends, if_pos hends]
    rw [Parse.current_eq] at hends
    exact ⟨h.toBeside, h.mark, h.shape, by simpa using hends⟩
  · rw [if_neg hends, if_neg hends]
    have herrors := h.errors
    by_cases hbooked : p.errors.length = booked
    · rw [if_pos hbooked, if_pos (by omega)]
      rw [h.currentText hsees]
      exact (h.book _).skip hsees htakes
    · rw [if_neg hbooked, if_neg (by omega)]
      exact h.skip hsees htakes

end Along

namespace Script

variable {Rule : Type} {rules : Rule → Action} {surplus : Surplus} {marked : Bool}
  {shape : List Token → Prop} {after : Bool → List Token → Prop}

/-- The script leads from paths of one shape to paths whose shape depends on the answer. -/
def Leads (rules : Rule → Action) (surplus : Surplus) (marked : Bool) (shape : List Token → Prop)
    (after : Bool → List Token → Prop) (script : Script Rule) : Prop :=
  Action.Pairs (Along surplus marked shape) (fun answer => Along surplus marked (after answer))
    (run rules script)

section Nodes

variable {other : List Token → Prop} {body : Script Rule}

theorem pairs_node {label : Label}
    (hbody : Action.Pairs (Along surplus marked shape) (fun _ => Along surplus marked other)
      (run rules body)) :
    Action.Pairs (Along surplus marked shape)
      (fun answer p q => answer = true ∧ Along surplus true other p q)
      (run rules (.node label body)) := by
  intro p q hpair hfault
  rw [run_node] at hfault ⊢
  obtain ⟨_, hnext⟩ := hbody p.flush q.flush hpair.flush (Parse.fault_of_close hfault)
  have hlength : q.flush.parts.length = p.flush.parts.length + surplus.base.length := by
    rw [hpair.flush.parts, List.length_append]
  exact ⟨rfl, rfl, hnext.close label.resolve hlength hfault⟩

theorem pairs_statement {kind : NodeKind} (hsees : other [] → surplus.tail = [])
    (htakes : ∀ token tokens, other (token :: tokens) → token.kind ∉ Parse.statementEnds →
      other tokens)
    (hbody : Action.Pairs (Along surplus marked shape) (fun _ => Along surplus marked other)
      (run rules body)) :
    Action.Pairs (Along surplus marked shape)
      (fun answer p q => answer = true ∧ Along surplus true
        (fun tokens => other tokens ∧ Token.nextKind tokens ∈ Parse.statementEnds) p q)
      (run rules (.statement kind body)) := by
  intro p q hpair hfault
  rw [run_statement] at hfault ⊢
  rw [run_statement]
  dsimp only at hfault ⊢
  have hbodyFault := Parse.fault_of_close hfault
  rw [Parse.fault_finishStatement] at hbodyFault
  obtain ⟨_, hnext⟩ := hbody p.flush q.flush hpair.flush hbodyFault
  have hdone := hnext.finishStatement hpair.flush.errors hsees htakes
  have hlength : q.flush.parts.length = p.flush.parts.length + surplus.base.length := by
    rw [hpair.flush.parts, List.length_append]
  have herrors := hdone.errors
  have hbooked := hpair.flush.errors
  refine ⟨rfl, rfl, ?_⟩
  have hlabel : (q.flush.errors.length <
        ((run rules body q.flush).2.finishStatement q.flush.errors.length).errors.length) =
      (p.flush.errors.length <
        ((run rules body p.flush).2.finishStatement p.flush.errors.length).errors.length) := by
    rw [herrors, hbooked]
    simp
  simp only [hlabel]
  exact hdone.close _ hlength hfault

end Nodes

namespace Leads

theorem answer {value : Bool} (h : ∀ tokens, shape tokens → after value tokens) :
    Leads rules surplus marked shape after (.answer value) :=
  fun _ _ hpair _ => ⟨rfl, hpair.of_imp h⟩

theorem report {problem : Problem} (h : ∀ tokens, shape tokens → after false tokens) :
    Leads rules surplus marked shape after (.report problem) :=
  fun _ _ hpair _ => ⟨rfl, (hpair.book problem).of_imp h⟩

theorem bump {kind : TokenKind} (hkind : kind ≠ .endOfInput)
    (h : ∀ token tokens, shape (token :: tokens) → token.kind = kind → after true tokens) :
    Leads rules surplus marked shape after (.bump kind) := by
  intro p q hpair hfault
  rw [run_bump] at hfault ⊢
  by_cases hcurrent : p.current = kind
  · have hshape := hpair.shape
    have hnext := hcurrent
    rw [Parse.current_eq] at hnext
    cases hrest : Token.significant p.rest with
    | nil =>
      rw [hrest] at hnext
      exact absurd hnext.symm hkind
    | cons token tokens =>
      rw [hrest] at hshape hnext
      have hother : q.current = kind := by
        rw [Parse.current_eq, hpair.rest, Token.significant_append, hrest]
        exact hnext
      rw [run_bump, if_pos hcurrent, if_pos hother]
      exact ⟨rfl, hpair.take hrest (fun hend => hkind (hnext.symm.trans hend)) (h token tokens hshape hnext)⟩
  · rw [if_neg hcurrent] at hfault
    cases hfault

theorem demand {kinds : List TokenKind} (hsees : shape [] → surplus.tail = [])
    (h : ∀ tokens, shape tokens → Token.nextKind tokens ∈ kinds → after true tokens) :
    Leads rules surplus marked shape after (.demand kinds) := by
  intro p q hpair hfault
  rw [run_demand] at hfault ⊢
  rw [run_demand, hpair.current hsees]
  by_cases hcurrent : kinds.contains p.current = true
  · rw [if_pos hcurrent, if_pos hcurrent]
    rw [Parse.current_eq] at hcurrent
    exact ⟨rfl, hpair.toBeside, hpair.mark, h _ hpair.shape (by simpa using hcurrent)⟩
  · rw [if_neg hcurrent] at hfault
    cases hfault

theorem advance (hsees : shape [] → surplus.tail = [])
    (hend : ∀ tokens, shape tokens → Token.nextKind tokens = .endOfInput → after true tokens)
    (h : ∀ token tokens, shape (token :: tokens) → token.kind ≠ .endOfInput → after true tokens) :
    Leads rules surplus marked shape after .advance := by
  intro p q hpair _
  refine ⟨rfl, ?_⟩
  have hshape := hpair.shape
  by_cases hcurrent : p.current = .endOfInput
  · have hother : q.current = .endOfInput := (hpair.current hsees).trans hcurrent
    change Along surplus marked (after true) p.take q.take
    rw [Parse.take, Parse.take, if_pos hcurrent, if_pos hother]
    rw [Parse.current_eq] at hcurrent
    exact ⟨hpair.toBeside, hpair.mark, hend _ hshape hcurrent⟩
  · rw [Parse.current_eq] at hcurrent
    cases hrest : Token.significant p.rest with
    | nil =>
      rw [hrest] at hcurrent
      exact absurd rfl hcurrent
    | cons token tokens =>
      rw [hrest] at hshape hcurrent
      exact hpair.take hrest hcurrent (h token tokens hshape hcurrent)

/-- A question about the next token. Where no token is left, what the second parse sees instead must not
be among the kinds. -/
theorem ask {kinds : List TokenKind}
    (hsees : shape [] → surplus.tail = [] ∨ .endOfInput ∉ kinds ∧
      Token.nextKind (Token.significant surplus.tail) ∉ kinds)
    (h : ∀ tokens, shape tokens → after (kinds.contains (Token.nextKind tokens)) tokens) :
    Leads rules surplus marked shape after (.ask (.at kinds)) := by
  intro p q hpair _
  have hshape := hpair.shape
  have hsame : kinds.contains q.current = kinds.contains p.current := by
    rw [Parse.current_eq, Parse.current_eq, hpair.rest, Token.significant_append]
    cases hrest : Token.significant p.rest with
    | nil =>
      rw [hrest] at hshape
      rcases hsees hshape with hnone | ⟨hend, hother⟩
      · rw [hnone]
        rfl
      · rw [List.nil_append, Token.nextKind, Bool.eq_iff_iff]
        simp [hend, hother]
    | cons token tokens => rfl
  refine ⟨hsame, hpair.toBeside, hpair.mark, ?_⟩
  change after (kinds.contains p.current) _
  rw [Parse.current_eq]
  exact h _ hshape

theorem askPair {kinds : List TokenKind} {second : TokenKind} (hsees : shape [] → surplus.tail = [])
    (hpairs : ∀ token, shape [token] → surplus.tail = [] ∨ token.kind ∉ kinds)
    (hyes : ∀ tokens, shape tokens → Token.nextKind tokens ∈ kinds → after true tokens)
    (hno : ∀ tokens, shape tokens → after false tokens) :
    Leads rules surplus marked shape after (.ask (.atPair kinds second)) := by
  intro p q hpair _
  have hshape := hpair.shape
  have hcurrent := hpair.current hsees
  have hholds (parse : Parse) : (Lookahead.atPair kinds second).holds parse =
      (kinds.contains parse.current && parse.second = second) := rfl
  have hsame : (Lookahead.atPair kinds second).holds q =
      (Lookahead.atPair kinds second).holds p := by
    rw [hholds, hholds, hcurrent]
    cases hfirst : kinds.contains p.current with
    | false => rfl
    | true =>
      rw [Parse.current_eq, List.contains_iff_mem] at hfirst
      have hsecond : q.second = p.second := by
        rw [Parse.second_eq, Parse.second_eq, hpair.rest, Token.significant_append]
        cases hrest : Token.significant p.rest with
        | nil =>
          rw [hrest] at hshape
          rw [hsees hshape]
          rfl
        | cons token tokens =>
          cases tokens with
          | nil =>
            rw [hrest] at hshape hfirst
            rcases hpairs token hshape with hnone | hnot
            · rw [hnone]
              rfl
            · exact absurd hfirst hnot
          | cons next tokens => rfl
      rw [hsecond]
  refine ⟨hsame, hpair.toBeside, hpair.mark, ?_⟩
  change after ((Lookahead.atPair kinds second).holds p) _
  cases hanswer : (Lookahead.atPair kinds second).holds p with
  | false => exact hno _ hshape
  | true =>
    rw [hholds, Parse.current_eq, Bool.and_eq_true, List.contains_iff_mem] at hanswer
    exact hyes _ hshape hanswer.1

/-- A call of a rule. -/
theorem call {rule : Rule}
    (h : Action.Pairs (Along surplus marked shape) (fun answer => Along surplus marked (after answer)) (rules rule)) :
    Leads rules surplus marked shape after (.call rule) := h

theorem weaken {script : Script Rule} (h : Leads rules surplus marked shape after script)
    {stronger : List Token → Prop} {weaker : Bool → List Token → Prop}
    (hshape : ∀ tokens, stronger tokens → shape tokens)
    (hafter : ∀ answer tokens, after answer tokens → weaker answer tokens) :
    Leads rules surplus marked stronger weaker script :=
  Action.Pairs.weaken h (fun _ _ hpair => hpair.of_imp hshape)
    fun answer _ _ hpair => hpair.of_imp (hafter answer)

section Forms

variable (hkeeps : ∀ rule, (rules rule).Keeps)
include hkeeps

theorem seq (middle : Bool → List Token → Prop) {first second : Script Rule}
    (hfirst : Leads rules surplus marked shape middle first)
    (hsecond : ∀ answer, Leads rules surplus marked (middle answer) after second) :
    Leads rules surplus marked shape after (.seq first second) :=
  pairs_seq hkeeps hfirst hsecond

theorem cond (middle : Bool → List Token → Prop) {test yes no : Script Rule}
    (htest : Leads rules surplus marked shape middle test)
    (hyes : Leads rules surplus marked (middle true) after yes)
    (hno : Leads rules surplus marked (middle false) after no) :
    Leads rules surplus marked shape after (.cond test yes no) :=
  pairs_cond hkeeps htest hyes hno

theorem loop {body : Script Rule}
    (hbody : Leads rules surplus marked shape (fun answer => if answer then shape else after true) body) :
    Leads rules surplus marked shape after (.loop body) := by
  refine pairs_loop hkeeps (fun p q hpair => hpair.remaining) ?_
  refine Action.Pairs.of_imp hbody fun answer p q hpair => ?_
  cases answer <;> exact hpair

end Forms

theorem node {label : Label} {body : Script Rule}
    (hbody : Leads rules surplus marked shape (fun _ => after true) body) :
    Leads rules surplus marked shape after (.node label body) :=
  Action.Pairs.of_imp (pairs_node hbody) fun answer _ _ h => by
    obtain ⟨rfl, hpair⟩ := h
    exact hpair.unmark

theorem wrap {kind : NodeKind} {body : Script Rule}
    (hbody : Leads rules surplus true shape (fun _ => after true) body) :
    Leads rules surplus true shape after (.wrap kind body) := by
  intro p q hpair hfault
  rw [run_wrap] at hfault ⊢
  obtain ⟨_, hnext⟩ := hbody p q hpair (Parse.fault_of_close hfault)
  exact ⟨rfl, hnext.close (fun _ => kind) (hpair.mark rfl) hfault⟩

theorem statement {kind : NodeKind} {middle : List Token → Prop} {body : Script Rule}
    (hsees : middle [] → surplus.tail = [])
    (htakes : ∀ token tokens, middle (token :: tokens) → token.kind ∉ Parse.statementEnds →
      middle tokens)
    (hbody : Leads rules surplus marked shape (fun _ => middle) body)
    (h : ∀ tokens, middle tokens → Token.nextKind tokens ∈ Parse.statementEnds →
      after true tokens) :
    Leads rules surplus marked shape after (.statement kind body) :=
  Action.Pairs.of_imp (pairs_statement hsees htakes hbody) fun answer _ _ hdone => by
    obtain ⟨rfl, hpair⟩ := hdone
    exact hpair.unmark.of_imp fun tokens hmiddle => h tokens hmiddle.1 hmiddle.2

end Leads

end Script

end Syntax

end QuantumScript
