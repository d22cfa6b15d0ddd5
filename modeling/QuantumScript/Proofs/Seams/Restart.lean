import QuantumScript.Proofs.Seams.Inline
/-!
# Starting afresh

A parse that comes to the start of a statement goes on as a parse that begins there. Two things could
tell them apart. Blanks and comments ahead belong to what stands before, so a statement must take them
before it begins. And the first parse has a mark from a node completed long ago, so nothing may be
wrapped before another node has been completed. Both are checked on the scripts.
-/

namespace QuantumScript

namespace Syntax

namespace Parse

private theorem flush_of_solid {parse : Parse} (h : ∀ first ∈ parse.rest.head?, first.isTrivia = false) :
    parse.flush = parse := by
  rw [flush, shiftWhile]
  cases hrest : parse.rest with
  | nil => rfl
  | cons first rest =>
    rw [List.takeWhile_cons_of_neg (by simp [h first (by rw [hrest]; rfl)])]
    rfl

@[simp] theorem flush_flush (parse : Parse) : parse.flush.flush = parse.flush := by
  apply flush_of_solid
  intro first hmem
  rw [flush, shiftWhile_eq] at hmem
  have hhead := List.head?_dropWhile_not Token.isTrivia parse.rest
  dsimp only at hmem
  rw [Option.mem_def.mp hmem] at hhead
  simpa using hhead

theorem current_flush (parse : Parse) : parse.flush.current = parse.current := by
  rw [current_eq, current_eq, significant_flush]

private theorem second_flush (parse : Parse) : parse.flush.second = parse.second := by
  rw [second_eq, second_eq, significant_flush]

end Parse

namespace Script

variable {Rule : Type} {rules : Rule → Action}

/-- The script does no more than to look at the tokens ahead. -/
def looks : Script Rule → Bool
  | .demand _ | .ask _ => true
  | _ => false

/-- The blanks and comments ahead are taken before anything else is done. -/
def flushes (callable : Rule → Bool) : Script Rule → Bool
  | .call rule => callable rule
  | .seq first second => flushes callable first || looks first && flushes callable second
  | .cond test yes no => looks test && flushes callable yes && flushes callable no
  | .node _ _ | .statement _ _ => true
  | .loop body => flushes callable body
  | _ => false

private theorem run_looks (rules : Rule → Action) {script : Script Rule} (h : looks script = true)
    (parse : Parse) :
    (run rules script parse.flush).1 = (run rules script parse).1 ∧
      (run rules script parse.flush).2 = (run rules script parse).2.flush := by
  cases script with
  | demand kinds =>
    rw [run_demand, run_demand, Parse.current_flush]
    by_cases hcurrent : kinds.contains parse.current = true
    · rw [if_pos hcurrent, if_pos hcurrent]
      exact ⟨rfl, rfl⟩
    · rw [if_neg hcurrent, if_neg hcurrent]
      refine ⟨rfl, ?_⟩
      simp [Parse.fail, Parse.flush, Parse.shiftWhile_eq]
  | ask question =>
    refine ⟨?_, rfl⟩
    cases question <;> simp [run_ask, Lookahead.holds, Parse.current_flush, Parse.second_flush]
  | _ => cases h

private theorem run_flush {callable : Rule → Bool} (hkeeps : ∀ rule, (rules rule).Keeps)
    (hcalls : ∀ rule, callable rule = true → ∀ parse, (rules rule parse).2.fault = false →
      rules rule parse.flush = rules rule parse)
    (script : Script Rule) (h : flushes callable script = true) (parse : Parse)
    (hfault : (run rules script parse).2.fault = false) :
    run rules script parse.flush = run rules script parse := by
  induction script generalizing parse with
  | call rule => exact hcalls rule h parse hfault
  | seq first second hfirst hsecond =>
    rw [run_seq] at hfault
    rw [run_seq, run_seq]
    rcases Bool.or_eq_true_iff.mp h with h | h
    · rw [hfirst h parse ((run_keeps hkeeps second).before hfault)]
    · obtain ⟨hlooks, hflushes⟩ := Bool.and_eq_true_iff.mp h
      rw [(run_looks rules hlooks parse).2]
      exact hsecond hflushes _ hfault
  | cond test yes no _ hyes hno =>
    obtain ⟨hboth, hothers⟩ := Bool.and_eq_true_iff.mp h
    obtain ⟨hlooks, hthen⟩ := Bool.and_eq_true_iff.mp hboth
    obtain ⟨hanswer, hnext⟩ := run_looks rules hlooks parse
    rw [run_cond] at hfault
    rw [run_cond, run_cond, hanswer, hnext]
    by_cases hasked : (run rules test parse).1 = true
    · rw [if_pos hasked] at hfault
      rw [if_pos hasked, if_pos hasked]
      exact hyes hthen _ hfault
    · rw [if_neg hasked] at hfault
      rw [if_neg hasked, if_neg hasked]
      exact hno hothers _ hfault
  | node label body _ => rw [run_node, run_node, Parse.flush_flush]
  | statement kind body _ => rw [run_statement, run_statement, Parse.flush_flush]
  | loop body hbody =>
    rw [run_loop] at hfault
    rw [run_loop, run_loop]
    rw [Action.iterate_congr (hbody h parse ((run_keeps hkeeps body).first hfault))
      parse.remaining_flush]
  | _ => cases h

/-- Tells for each answer whether a node has been completed by then, if the rules do so as promised.
None if something may be wrapped before. -/
def marks (promised : Rule → Bool × Bool) : Script Rule → Option (Bool × Bool)
  | .answer value => some (!value, value)
  | .bump kind => if kind = .endOfInput then none else some (false, true)
  | .demand _ | .advance => some (false, true)
  | .report _ => some (true, false)
  | .ask _ => some (false, false)
  | .call rule => some (promised rule)
  | .seq first second =>
    (marks promised first).bind fun flags =>
      if flags.1 && flags.2 then some (true, true) else marks promised second
  | .cond test yes no =>
    (marks promised test).bind fun asked =>
      (if asked.1 then some (true, true) else marks promised yes).bind fun first =>
        (if asked.2 then some (true, true) else marks promised no).map fun other =>
          (first.1 && other.1, first.2 && other.2)
  | .node _ body | .statement _ body => (marks promised body).map fun _ => (true, true)
  | .wrap _ _ => none
  | .loop body => (marks promised body).map fun flags => (flags.2, true)

section Marks

variable {surplus : Surplus} {promised : Rule → Bool × Bool}

/-- Both parses have the same tokens ahead. If `marked`, a node has been completed. -/
abbrev Same (surplus : Surplus) (marked : Bool) : Parse → Parse → Prop :=
  Along surplus marked fun _ => True

/-- What holds after an answer. -/
abbrev SameBy (surplus : Surplus) (flags : Bool × Bool) (answer : Bool) : Parse → Parse → Prop :=
  Same surplus (if answer then flags.1 else flags.2)

private theorem same_of_imp {marked other : Bool} (himp : other = true → marked = true) {p q : Parse}
    (h : Same surplus marked p q) : Same surplus other p q :=
  ⟨h.toBeside, fun hother => h.mark (himp hother), trivial⟩

private theorem pairs_of_leads {script : Script Rule} {value : Bool}
    (h : Leads rules surplus false (fun _ => True) (fun answer _ => answer = value) script) :
    Action.Pairs (Same surplus false) (SameBy surplus (!value, value)) (run rules script) :=
  Action.Pairs.of_imp h fun answer p q hpair => by
    obtain rfl := hpair.shape
    cases answer <;> exact ⟨hpair.toBeside, hpair.mark, trivial⟩

private theorem pairs_of_true {before : Parse → Parse → Prop} {flags : Bool × Bool}
    {script : Script Rule}
    (h : Action.Pairs before (fun _ => Same surplus true) (run rules script)) :
    Action.Pairs before (SameBy surplus flags) (run rules script) :=
  h.of_imp fun _ _ _ => same_of_imp fun _ => rfl

private theorem pairs_unmarked {before : Parse → Parse → Prop} {flags : Bool × Bool}
    {script : Script Rule} (h : Action.Pairs before (SameBy surplus flags) (run rules script)) :
    Action.Pairs before (fun _ => Same surplus false) (run rules script) :=
  h.of_imp fun _ _ _ => same_of_imp fun hnone => absurd hnone Bool.false_ne_true

private theorem leads_same_bump (htail : surplus.tail = []) (kind : TokenKind) :
    Leads rules surplus true (fun _ => True) (fun _ _ => True) (.bump kind) := by
  by_cases hkind : kind = .endOfInput
  · intro p q hpair hfault
    rw [run_bump] at hfault ⊢
    rw [run_bump, hpair.current fun _ => htail]
    by_cases hcurrent : p.current = kind
    · rw [if_pos hcurrent, if_pos hcurrent]
      rw [hkind] at hcurrent
      have hother := hpair.current fun _ => htail
      rw [Parse.take, Parse.take, if_pos hcurrent, if_pos (hother.trans hcurrent)]
      exact ⟨rfl, hpair⟩
    · rw [if_neg hcurrent] at hfault
      cases hfault
  · exact Leads.bump hkind fun _ _ _ _ => trivial

/-- Once a node has been completed, every script does the same to both. -/
theorem leads_same (htail : surplus.tail = []) (hkeeps : ∀ rule, (rules rule).Keeps)
    (hcalls : ∀ rule, Action.Pairs (Same surplus true) (fun _ => Same surplus true) (rules rule))
    (script : Script Rule) : Leads rules surplus true (fun _ => True) (fun _ _ => True) script := by
  have hsees : True → surplus.tail = [] := fun _ => htail
  induction script with
  | answer value => exact Leads.answer fun _ => id
  | bump kind => exact leads_same_bump htail kind
  | demand kinds => exact Leads.demand hsees fun _ _ _ => trivial
  | advance => exact Leads.advance hsees (fun _ _ _ => trivial) fun _ _ _ _ => trivial
  | report problem => exact Leads.report fun _ => id
  | ask question =>
    cases question with
    | «at» kinds => exact Leads.ask (fun _ => .inl htail) fun _ => id
    | atPair kinds second =>
      exact Leads.askPair hsees (fun _ _ => .inl htail) (fun _ _ _ => trivial) fun _ => id
  | call rule => exact hcalls rule
  | seq first second hfirst hsecond => exact Leads.seq hkeeps _ hfirst fun _ => hsecond
  | cond test yes no htest hyes hno => exact Leads.cond hkeeps _ htest hyes hno
  | node label body hbody => exact Leads.node hbody
  | wrap kind body hbody => exact Leads.wrap hbody
  | statement kind body hbody =>
    exact Leads.statement hsees (fun _ _ _ _ => trivial) hbody fun _ _ _ => trivial
  | loop body hbody =>
    exact Leads.loop hkeeps (hbody.weaken (fun _ => id) fun answer _ _ => by cases answer <;> trivial)

variable (hmarked : ∀ script, Leads rules surplus true (fun _ => True) (fun _ _ => True) script)
include hmarked

private theorem pairs_after {done : Bool} {script : Script Rule} {flags : Bool × Bool}
    (h : (if done then some (true, true) else marks promised script) = some flags)
    (hscript : marks promised script = some flags →
      Action.Pairs (Same surplus false) (SameBy surplus flags) (run rules script)) :
    Action.Pairs (Same surplus done) (SameBy surplus flags) (run rules script) := by
  cases done with
  | true => exact pairs_of_true (hmarked script)
  | false => exact hscript h

/-- Two runs of a script that wraps nothing too early see the same and do the same. -/
theorem pairs_of_marks (hkeeps : ∀ rule, (rules rule).Keeps) (htail : surplus.tail = [])
    (hcalls : ∀ rule, Action.Pairs (Same surplus false) (SameBy surplus (promised rule)) (rules rule))
    (script : Script Rule) {flags : Bool × Bool} (h : marks promised script = some flags) :
    Action.Pairs (Same surplus false) (SameBy surplus flags) (run rules script) := by
  induction script generalizing flags with
  | answer value =>
    cases h
    exact pairs_of_leads (Leads.answer fun _ _ => rfl)
  | bump kind =>
    rw [marks] at h
    split at h
    · cases h
    · rename_i hkind
      cases h
      exact pairs_of_leads (Leads.bump hkind fun _ _ _ _ => rfl)
  | demand kinds =>
    cases h
    exact pairs_of_leads (Leads.demand (fun _ => htail) fun _ _ _ => rfl)
  | advance =>
    cases h
    exact pairs_of_leads (Leads.advance (fun _ => htail) (fun _ _ _ => rfl) fun _ _ _ _ => rfl)
  | report problem =>
    cases h
    exact pairs_of_leads (Leads.report fun _ _ => rfl)
  | ask question =>
    cases h
    have hask : Leads rules surplus false (fun _ => True) (fun _ _ => True) (.ask question) := by
      cases question with
      | «at» kinds => exact Leads.ask (fun _ => .inl htail) fun _ _ => trivial
      | atPair kinds second =>
        exact Leads.askPair (fun _ => htail) (fun _ _ => .inl htail) (fun _ _ _ => trivial)
          fun _ _ => trivial
    refine Action.Pairs.of_imp hask fun answer _ _ => ?_
    cases answer <;> exact id
  | call rule =>
    cases h
    exact hcalls rule
  | seq first second hfirst hsecond =>
    rw [marks, Option.bind_eq_some_iff] at h
    obtain ⟨middle, hmiddle, h⟩ := h
    refine pairs_seq hkeeps (hfirst hmiddle) fun answer => ?_
    refine (pairs_after hmarked h hsecond).weaken ?_ fun _ _ _ => id
    intro p q
    refine same_of_imp fun hboth => ?_
    rw [Bool.and_eq_true] at hboth
    cases answer
    · exact hboth.2
    · exact hboth.1
  | cond test yes no htest hyes hno =>
    rw [marks, Option.bind_eq_some_iff] at h
    obtain ⟨asked, hasked, h⟩ := h
    rw [Option.bind_eq_some_iff] at h
    obtain ⟨first, hfirst, h⟩ := h
    rw [Option.map_eq_some_iff] at h
    obtain ⟨other, hother, rfl⟩ := h
    refine pairs_cond hkeeps (htest hasked)
      ((pairs_after hmarked hfirst hyes).of_imp ?_)
      ((pairs_after hmarked hother hno).of_imp ?_)
    · intro answer p q
      refine same_of_imp fun hboth => ?_
      cases answer <;> exact (Bool.and_eq_true_iff.mp hboth).1
    · intro answer p q
      refine same_of_imp fun hboth => ?_
      cases answer <;> exact (Bool.and_eq_true_iff.mp hboth).2
  | node label body hbody =>
    rw [marks, Option.map_eq_some_iff] at h
    obtain ⟨inner, hinner, rfl⟩ := h
    exact pairs_of_true ((pairs_node (pairs_unmarked (hbody hinner))).of_imp fun _ _ _ => And.right)
  | wrap kind body _ => cases h
  | statement kind body hbody =>
    rw [marks, Option.map_eq_some_iff] at h
    obtain ⟨inner, hinner, rfl⟩ := h
    refine pairs_of_true ((pairs_statement (fun _ => htail) (fun _ _ _ _ => trivial)
      (pairs_unmarked (hbody hinner))).of_imp fun _ _ _ hdone => ?_)
    exact hdone.2.of_imp fun _ _ => trivial
  | loop body hbody =>
    rw [marks, Option.map_eq_some_iff] at h
    obtain ⟨inner, hinner, rfl⟩ := h
    refine pairs_loop hkeeps (fun p q hpair => hpair.remaining) ((hbody hinner).of_imp ?_)
    intro answer p q hpair
    cases answer
    · exact hpair
    · exact same_of_imp (fun hnone => absurd hnone Bool.false_ne_true) hpair

end Marks

end Script

namespace Rule

/-- Rules of expressions, which complete a node if there is an expression. -/
def isOperand : Rule → Bool
  | .expressionList | .targetList | .expression | .disjunction | .conjunction | .negation
  | .comparison | .bitOr | .bitXor | .bitAnd | .shift | .sum | .product | .factor | .power
  | .chain | .atom => true
  | _ => false

/-- The answers with which a rule has completed a node. Clauses may be missing. -/
def completes : Rule → Bool × Bool
  | .clauses | .elseClause => (false, false)
  | rule => (true, !rule.isOperand)

/-- The rules that a statement begins with. -/
def isStatement : Rule → Bool
  | .simpleStatement => true
  | .elseClause | .suite => false
  | rule => !rule.isInline

private theorem marks_grammar (rule : Rule) :
    ∃ flags, (grammar rule).marks completes = some flags ∧
      (completes rule).1 ≤ flags.1 ∧ (completes rule).2 ≤ flags.2 := by
  cases rule <;> exact ⟨_, rfl, by decide, by decide⟩

private theorem flushes_statement (rule : Rule) (h : rule.isStatement = true) :
    (grammar rule).flushes isStatement = true := by
  cases rule <;> first | rfl | cases h

end Rule

namespace Script

variable {surplus : Surplus}

/-- Runs over the same tokens do the same, however each has begun. -/
theorem pairs_same (htail : surplus.tail = []) (depth : Nat) (rule : Rule) :
    Action.Pairs (Same surplus true) (fun _ => Same surplus true) (runRule grammar depth rule) := by
  induction depth generalizing rule with
  | zero =>
    intro p q _ hfault
    cases hfault
  | succ depth ih => exact leads_same htail (runRule_keeps grammar depth) ih (grammar rule)

theorem pairs_anew (htail : surplus.tail = []) (depth : Nat) (rule : Rule) :
    Action.Pairs (Same surplus false) (SameBy surplus rule.completes)
      (runRule grammar depth rule) := by
  induction depth generalizing rule with
  | zero =>
    intro p q _ hfault
    cases hfault
  | succ depth ih =>
    have hkeeps := runRule_keeps grammar depth
    obtain ⟨flags, hflags, hyes, hno⟩ := rule.marks_grammar
    have hmarked := leads_same htail hkeeps (pairs_same htail depth)
    refine (pairs_of_marks hmarked hkeeps htail ih (grammar rule) hflags).of_imp ?_
    intro answer p q
    cases answer
    · exact same_of_imp hno
    · exact same_of_imp hyes

/-- The script of a statement does not depend on who takes the blanks and comments before it. -/
theorem runRule_flush (depth : Nat) (rule : Rule) (h : rule.isStatement = true) (parse : Parse)
    (hfault : (runRule grammar depth rule parse).2.fault = false) :
    runRule grammar depth rule parse.flush = runRule grammar depth rule parse := by
  induction depth generalizing rule parse with
  | zero => cases hfault
  | succ depth ih =>
    exact run_flush (runRule_keeps grammar depth) ih (grammar rule) (rule.flushes_statement h) parse
      hfault

end Script

end Syntax

end QuantumScript
