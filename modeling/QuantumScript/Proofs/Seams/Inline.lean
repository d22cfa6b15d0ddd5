import QuantumScript.Proofs.Seams.Paths
import QuantumScript.Syntax.Grammar
/-!
# Productions within a line

A production that holds no block never takes the end of a line. Whether a script can take a token of a
certain kind is checked on the script: it may take the next token unseen only where a question has ruled
this kind out. So two runs of such a production do not part before the line ends.
-/

namespace QuantumScript

namespace Syntax

namespace Script

variable {Rule : Type}

/-- None of the kinds is barred. -/
def apart (barred kinds : List TokenKind) : Bool := kinds.all fun kind => !barred.contains kind

/-- Checks that a script takes no token of a barred kind, if the rules that it may call do not. It is
`known` if the next token has no such kind; the result tells whether this is so after each answer. -/
def spares (barred : List TokenKind) (callable : Rule → Bool) (known : Bool) :
    Script Rule → Option (Bool × Bool)
  | .answer value => some (if value then (known, true) else (true, known))
  | .bump kind =>
    if barred.contains kind || kind = .endOfInput then none else some (false, true)
  | .demand kinds => some (known || apart barred kinds, true)
  | .advance => if known then some (false, true) else none
  | .report _ => some (true, known)
  | .ask (.at kinds) =>
    some (known || apart barred kinds, known || barred.all fun kind => kinds.contains kind)
  | .ask (.atPair kinds _) => if apart barred kinds then some (true, known) else none
  | .call rule => if callable rule then some (false, false) else none
  | .seq first second =>
    (spares barred callable known first).bind fun flags =>
      spares barred callable (flags.1 && flags.2) second
  | .cond test yes no =>
    (spares barred callable known test).bind fun asked =>
      (spares barred callable asked.1 yes).bind fun first =>
        (spares barred callable asked.2 no).map fun other =>
          (first.1 && other.1, first.2 && other.2)
  | .node _ body => (spares barred callable known body).map fun flags => (flags.1 && flags.2, true)
  | .wrap _ body => (spares barred callable known body).map fun flags => (flags.1 && flags.2, true)
  | .statement _ body => (spares barred callable known body).map fun _ => (false, true)
  | .loop body => (spares barred callable false body).map fun flags => (flags.2, true)

/-- Tokens of the shape are seen by two parses alike, and the shape is kept unless a token of a barred
kind is taken. -/
structure Guards (surplus : Surplus) (barred : List TokenKind) (shape : List Token → Prop) : Prop where
  sees : shape [] → surplus.tail = []
  pairs : ∀ token, shape [token] → surplus.tail = [] ∨ token.kind ∈ barred
  takes : ∀ token tokens, shape (token :: tokens) → token.kind ∉ barred → shape tokens

/-- It is known, or need not be known, that the next token has no barred kind. -/
def Known (barred : List TokenKind) (shape : List Token → Prop) (known : Bool)
    (tokens : List Token) : Prop :=
  shape tokens ∧ (known = true → Token.nextKind tokens ∉ barred)

variable {rules : Rule → Action} {surplus : Surplus} {barred : List TokenKind}
  {shape : List Token → Prop} {callable : Rule → Bool}

private theorem not_mem_of_apart {kinds : List TokenKind} (h : apart barred kinds = true)
    {kind : TokenKind} (hmem : kind ∈ kinds) : kind ∉ barred := by
  have := List.all_eq_true.mp h kind hmem
  simpa using this

theorem Known.of_imp {known other : Bool} (himp : other = true → known = true)
    {tokens : List Token} (h : Known barred shape known tokens) : Known barred shape other tokens :=
  ⟨h.1, fun hother => h.2 (himp hother)⟩

theorem Known.unknown {tokens : List Token} (h : shape tokens) : Known barred shape false tokens :=
  ⟨h, fun hknown => absurd hknown Bool.false_ne_true⟩

private theorem Known.both {flags : Bool × Bool} {answer : Bool} {tokens : List Token}
    (h : Known barred shape (if answer then flags.1 else flags.2) tokens) :
    Known barred shape (flags.1 && flags.2) tokens := by
  refine h.of_imp fun hboth => ?_
  rw [Bool.and_eq_true] at hboth
  cases answer
  · exact hboth.2
  · exact hboth.1

section Questions

variable {known : Bool}

private theorem leads_demand (hguards : Guards surplus barred shape) (kinds : List TokenKind) :
    Leads rules surplus true (Known barred shape known)
      (fun answer => Known barred shape (if answer then known || apart barred kinds else true))
      (.demand kinds) := by
  refine Leads.demand (fun hshape => hguards.sees hshape.1) ?_
  intro tokens hshape hmem
  refine ⟨hshape.1, fun hor => ?_⟩
  rcases (Bool.or_eq_true _ _).mp hor with hknown | hapart
  · exact hshape.2 hknown
  · exact not_mem_of_apart hapart hmem

private theorem leads_ask (hguards : Guards surplus barred shape) (kinds : List TokenKind) :
    Leads rules surplus true (Known barred shape known)
      (fun answer => Known barred shape (if answer then known || apart barred kinds
        else known || barred.all fun kind => kinds.contains kind)) (.ask (.at kinds)) := by
  refine Leads.ask (fun hshape => .inl (hguards.sees hshape.1)) ?_
  intro tokens hshape
  cases hasked : kinds.contains (Token.nextKind tokens) with
  | true =>
    refine ⟨hshape.1, fun hor => ?_⟩
    rcases (Bool.or_eq_true _ _).mp hor with hknown | hapart
    · exact hshape.2 hknown
    · exact not_mem_of_apart hapart (List.contains_iff_mem.mp hasked)
  | false =>
    refine ⟨hshape.1, fun hor hmem => ?_⟩
    rcases (Bool.or_eq_true _ _).mp hor with hknown | hall
    · exact hshape.2 hknown hmem
    · have := List.all_eq_true.mp hall _ hmem
      rw [hasked] at this
      cases this

private theorem leads_askPair (hguards : Guards surplus barred shape) {kinds : List TokenKind}
    (hapart : apart barred kinds = true) (second : TokenKind) :
    Leads rules surplus true (Known barred shape known)
      (fun answer => Known barred shape (if answer then true else known))
      (.ask (.atPair kinds second)) := by
  refine Leads.askPair (fun hshape => hguards.sees hshape.1) ?_ ?_ fun _ => id
  · intro token hshape
    rcases hguards.pairs token hshape.1 with hnone | hbarred
    · exact .inl hnone
    · exact .inr fun hmem => not_mem_of_apart hapart hmem hbarred
  · exact fun tokens hshape hmem => ⟨hshape.1, fun _ => not_mem_of_apart hapart hmem⟩

end Questions

/-- Two runs of a script that takes no barred token stay on a path of the shape. -/
theorem leads_of_spares (hguards : Guards surplus barred shape)
    (hbarred : ∀ kind ∈ barred, kind ∈ Parse.statementEnds)
    (hkeeps : ∀ rule, (rules rule).Keeps)
    (hcalls : ∀ rule, callable rule = true →
      Action.Pairs (Along surplus true shape) (fun _ => Along surplus true shape) (rules rule))
    (script : Script Rule) {known : Bool} {flags : Bool × Bool}
    (h : spares barred callable known script = some flags) :
    Leads rules surplus true (Known barred shape known)
      (fun answer => Known barred shape (if answer then flags.1 else flags.2)) script := by
  induction script generalizing known flags with
  | answer value =>
    cases h
    cases value <;> exact Leads.answer fun _ => id
  | bump kind =>
    rw [spares] at h
    split at h
    · cases h
    · rename_i hkind
      cases h
      simp only [Bool.or_eq_true, List.contains_iff_mem, decide_eq_true_eq, not_or] at hkind
      refine Leads.bump hkind.2 fun token tokens hshape hsame => ?_
      exact .unknown (hguards.takes token tokens hshape.1 (hsame ▸ hkind.1))
  | demand kinds =>
    cases h
    exact leads_demand hguards kinds
  | advance =>
    rw [spares] at h
    split at h
    · rename_i hknown
      cases h
      refine Leads.advance (fun hshape => hguards.sees hshape.1)
        (fun tokens hshape _ => .unknown hshape.1) ?_
      exact fun token tokens hshape _ =>
        .unknown (hguards.takes token tokens hshape.1 (hshape.2 hknown))
    · cases h
  | report problem =>
    cases h
    exact Leads.report fun _ => id
  | ask question =>
    cases question with
    | «at» kinds =>
      cases h
      exact leads_ask hguards kinds
    | atPair kinds second =>
      rw [spares] at h
      split at h
      · rename_i hapart
        cases h
        exact leads_askPair hguards hapart second
      · cases h
  | call rule =>
    rw [spares] at h
    split at h
    · rename_i hcallable
      cases h
      refine (Leads.call (hcalls rule hcallable)).weaken (fun _ hshape => hshape.1) ?_
      exact fun answer tokens hshape => by cases answer <;> exact .unknown hshape
    · cases h
  | seq first second hfirst hsecond =>
    rw [spares, Option.bind_eq_some_iff] at h
    obtain ⟨middle, hmiddle, hlast⟩ := h
    refine Leads.seq hkeeps _ (hfirst hmiddle) fun answer => ?_
    exact (hsecond hlast).weaken (fun _ => Known.both) fun _ _ => id
  | cond test yes no htest hyes hno =>
    rw [spares, Option.bind_eq_some_iff] at h
    obtain ⟨asked, hasked, h⟩ := h
    rw [Option.bind_eq_some_iff] at h
    obtain ⟨first, hfirst, h⟩ := h
    rw [Option.map_eq_some_iff] at h
    obtain ⟨other, hother, rfl⟩ := h
    refine Leads.cond hkeeps _ (htest hasked) ((hyes hfirst).weaken (fun _ => id) ?_)
      ((hno hother).weaken (fun _ => id) ?_)
    · intro answer tokens hshape
      refine hshape.of_imp fun hboth => ?_
      cases answer <;> exact (Bool.and_eq_true_iff.mp hboth).1
    · intro answer tokens hshape
      refine hshape.of_imp fun hboth => ?_
      cases answer <;> exact (Bool.and_eq_true_iff.mp hboth).2
  | node label body hbody =>
    rw [spares, Option.map_eq_some_iff] at h
    obtain ⟨inner, hinner, rfl⟩ := h
    exact Leads.node ((hbody hinner).weaken (fun _ => id) fun _ _ => Known.both)
  | wrap kind body hbody =>
    rw [spares, Option.map_eq_some_iff] at h
    obtain ⟨inner, hinner, rfl⟩ := h
    exact Leads.wrap ((hbody hinner).weaken (fun _ => id) fun _ _ => Known.both)
  | statement kind body hbody =>
    rw [spares, Option.map_eq_some_iff] at h
    obtain ⟨inner, hinner, rfl⟩ := h
    refine Leads.statement hguards.sees ?_
      ((hbody hinner).weaken (fun _ => id) fun _ _ hshape => hshape.1) fun _ hshape _ => .unknown hshape
    exact fun token tokens hshape hgoes =>
      hguards.takes token tokens hshape fun hmem => hgoes (hbarred _ hmem)
  | loop body hbody =>
    rw [spares, Option.map_eq_some_iff] at h
    obtain ⟨inner, hinner, rfl⟩ := h
    refine (Leads.loop hkeeps ((hbody hinner).weaken (fun _ => id) ?_)).weaken
      (fun _ hshape => .unknown hshape.1) fun _ _ => id
    intro answer tokens hshape
    cases answer
    · exact hshape
    · exact .unknown hshape.1

end Script

namespace Rule

/-- Rules that hold no block. -/
def isInline : Rule → Bool
  | .statement | .simpleLine | .function | .classDefinition | .decorated | .ifStatement
  | .whileStatement | .forStatement | .withStatement | .tryStatement | .elseClause | .suite => false
  | _ => true

private theorem spares_inline (rule : Rule) (h : rule.isInline = true) :
    ((grammar rule).spares [.newline] isInline false).isSome = true := by
  cases rule <;> first | rfl | cases h

end Rule

namespace Script

variable {surplus : Surplus} {barred : List TokenKind} {shape : List Token → Prop}

/-- A call that is cut off ends with a fault, so the induction on the depth has nothing to show at its
start. -/
private theorem pairs_runRule {callable : Rule → Bool} (hguards : Guards surplus barred shape)
    (hbarred : ∀ kind ∈ barred, kind ∈ Parse.statementEnds)
    (hspares : ∀ rule, callable rule = true →
      ((grammar rule).spares barred callable false).isSome = true) (depth : Nat) (rule : Rule)
    (h : callable rule = true) :
    Action.Pairs (Along surplus true shape) (fun _ => Along surplus true shape)
      (runRule grammar depth rule) := by
  induction depth generalizing rule with
  | zero =>
    intro p q _ hfault
    cases hfault
  | succ depth ih =>
    obtain ⟨flags, hflags⟩ := Option.isSome_iff_exists.mp (hspares rule h)
    exact (leads_of_spares hguards hbarred (runRule_keeps grammar depth) ih (grammar rule)
      hflags).weaken (fun _ => Known.unknown) fun _ _ hknown => hknown.1

theorem guards_lined (after : List Token → Prop) : Guards surplus [.newline] (Lined after) := by
  refine ⟨?_, ?_, ?_⟩
  · rintro ⟨line, stop, rest, htokens, _⟩
    exact absurd htokens (by simp)
  · rintro token ⟨line, stop, rest, htokens, _, hstop, _⟩
    cases line with
    | nil =>
      obtain ⟨rfl, _⟩ := List.cons.inj htokens
      exact .inr (List.mem_singleton.mpr hstop)
    | cons first line => exact absurd (List.cons.inj htokens).2 (by simp)
  · rintro token tokens ⟨line, stop, rest, htokens, hline, hstop, hafter⟩ hkind
    cases line with
    | nil =>
      obtain ⟨rfl, _⟩ := List.cons.inj htokens
      exact absurd (List.mem_singleton.mpr hstop) hkind
    | cons first line =>
      exact ⟨line, stop, rest, (List.cons.inj htokens).2,
        fun other hmem => hline other (by simp [hmem]), hstop, hafter⟩

/-- What a production without a block takes stands on the line. -/
theorem pairs_inline (after : List Token → Prop) (depth : Nat) {rule : Rule}
    (h : rule.isInline = true) :
    Action.Pairs (Along surplus true (Lined after)) (fun _ => Along surplus true (Lined after))
      (runRule grammar depth rule) :=
  pairs_runRule (guards_lined after) (by decide) Rule.spares_inline depth rule h

end Script

end Syntax

end QuantumScript
