import QuantumScript.Proofs.Seams.Inline
/-!
# Productions with blocks

A suite that has been opened has a block to close before the tokens end. So where the tokens of a text
end between two lines, no suite is open, and what the parser asks there is only whether a clause follows
that goes on with a compound statement. Two runs on texts of which one goes on with a new statement stay
on one path up to there.
-/

namespace QuantumScript

namespace Syntax

/-- The tokens at the start of a line close so many blocks at least. -/
def Ready (count : Nat) (tokens : List Token) : Prop := ∃ depth, count ≤ depth ∧ Laid depth tokens

/-- More tokens follow. -/
def Unfinished (count : Nat) (tokens : List Token) : Prop := Ready count tokens ∧ tokens ≠ []

namespace Ready

variable {count : Nat} {token : Token} {tokens : List Token}

theorem nil (h : Ready count []) : count = 0 := by
  obtain ⟨depth, hle, hlaid⟩ := h
  cases hlaid
  omega

theorem kind (h : Ready count (token :: tokens)) :
    token.kind = .dedent ∨ token.kind = .indent ∨ token.Inline := by
  obtain ⟨depth, _, hlaid⟩ := h
  cases hlaid with
  | closed hkind _ => exact .inl hkind
  | opened hkind _ _ => exact .inr (.inl hkind)
  | line hfirst _ _ _ _ => exact .inr (.inr hfirst)

theorem dedent (h : Ready (count + 1) (token :: tokens)) (hkind : token.kind = .dedent) :
    Ready count tokens := by
  obtain ⟨depth, hle, hlaid⟩ := h
  cases hlaid with
  | closed _ hrest => exact ⟨_, by omega, hrest⟩
  | opened hindent _ _ =>
    rw [hkind] at hindent
    cases hindent
  | line hfirst _ _ _ _ => exact absurd (by rw [hkind]; decide) hfirst.2

theorem indent (h : Ready count (token :: tokens)) (hkind : token.kind = .indent) :
    Ready (count + 1) tokens := by
  obtain ⟨depth, hle, hlaid⟩ := h
  cases hlaid with
  | closed hdedent _ =>
    rw [hkind] at hdedent
    cases hdedent
  | opened _ _ hrest => exact ⟨_, by omega, hrest⟩
  | line hfirst _ _ _ _ => exact absurd (by rw [hkind]; decide) hfirst.2

theorem less (h : Ready (count + 1) tokens) : Ready count tokens := by
  obtain ⟨depth, hle, hlaid⟩ := h
  exact ⟨depth, by omega, hlaid⟩

private theorem lined (h : Ready count (token :: tokens)) (hkind : token.kind ∉ Token.edges) :
    Lined (Ready count) (token :: tokens) := by
  obtain ⟨depth, hle, hlaid⟩ := h
  cases hlaid with
  | closed hdedent _ => exact absurd (by rw [hdedent]; decide) hkind
  | opened hindent _ _ => exact absurd (by rw [hindent]; decide) hkind
  | @line _ _ stop line after hfirst hline hstop hafter _ =>
    exact ⟨token :: line, stop, after, rfl, List.forall_mem_cons.mpr ⟨hfirst, hline⟩, hstop, depth,
      hle, hafter⟩

theorem decorator (h : Ready count (token :: tokens)) (hkind : token.kind = .symbol .at) :
    Lined (Unfinished count) (token :: tokens) := by
  obtain ⟨depth, hle, hlaid⟩ := h
  cases hlaid with
  | closed hdedent _ =>
    rw [hkind] at hdedent
    cases hdedent
  | opened hindent _ _ =>
    rw [hkind] at hindent
    cases hindent
  | @line _ _ stop line after hfirst hline hstop hafter hat =>
    exact ⟨token :: line, stop, after, rfl, List.forall_mem_cons.mpr ⟨hfirst, hline⟩, hstop,
      ⟨depth, hle, hafter⟩, hat hkind⟩

end Ready

namespace Lined

variable {after : List Token → Prop} {token : Token} {tokens : List Token}

theorem stop (h : Lined after (token :: tokens)) (hkind : token.kind = .newline) : after tokens := by
  obtain ⟨line, stop, rest, htokens, hline, hstop, hafter⟩ := h
  cases line with
  | nil => exact (List.cons.inj htokens).2 ▸ hafter
  | cons first line =>
    obtain ⟨rfl, _⟩ := List.cons.inj htokens
    exact absurd (by rw [hkind]; decide) (hline token (by simp)).2

theorem nextKind (h : Lined after tokens) : Token.nextKind tokens ≠ .endOfInput := by
  obtain ⟨line, stop, rest, rfl, hline, hstop, _⟩ := h
  cases line with
  | nil =>
    change stop.kind ≠ _
    rw [hstop]
    decide
  | cons first line =>
    intro hend
    exact absurd (by rw [show first.kind = .endOfInput from hend]; decide) (hline first (by simp)).2

private theorem unfinished {count : Nat} (h : Lined (Unfinished count) tokens)
    (hkind : Token.nextKind tokens ≠ .newline) : Unfinished count tokens := by
  obtain ⟨line, stop, rest, rfl, hline, hstop, ⟨depth, hle, hlaid⟩, hne⟩ := h
  cases line with
  | nil => exact absurd hstop hkind
  | cons first line =>
    refine ⟨⟨depth, hle, ?_⟩, List.cons_ne_nil _ _⟩
    exact .line (hline first (by simp)) (fun other hmem => hline other (by simp [hmem])) hstop hlaid
      fun _ => hne

end Lined

/-- Kinds of tokens that no statement at the left margin begins with. -/
def seamKinds : List TokenKind := clauseWords.append [.newline, .indent, .dedent]

/-- A new statement follows the first text: what stands there does not go on with a compound one. -/
def Surplus.Begins (surplus : Surplus) : Prop :=
  Token.nextKind (Token.significant surplus.tail) ∉ seamKinds

namespace Script

open Production

/-- A question that is answered with no at the end of the first text and at the start of the second. -/
def askable (kinds : List TokenKind) : Bool := kinds.all seamKinds.contains

/-- Runs of the grammar along a path. -/
abbrev Passes (surplus : Surplus) (depth : Nat) (shape : List Token → Prop)
    (after : Bool → List Token → Prop) (script : Production) : Prop :=
  Leads (runRule grammar depth) surplus true shape after script

section Steps

variable {surplus : Surplus} {depth : Nat} {shape : List Token → Prop}
  {after : Bool → List Token → Prop} {kinds : List TokenKind} {kind : TokenKind}

private theorem passes_inline (rest : List Token → Prop) {script : Production}
    (h : (script.spares [.newline] Rule.isInline false).isSome = true) :
    Passes surplus depth (Lined rest) (fun _ => Lined rest) script := by
  obtain ⟨flags, hflags⟩ := Option.isSome_iff_exists.mp h
  exact (leads_of_spares (guards_lined rest) (by decide) (runRule_keeps grammar depth)
    (fun rule hrule => pairs_inline rest depth hrule) script hflags).weaken (fun _ => Known.unknown)
    fun _ _ hknown => hknown.1

private theorem passes_first {rest : List Token → Prop} {first second : Production}
    (h : (first.spares [.newline] Rule.isInline false).isSome = true)
    (hsecond : Passes surplus depth (Lined rest) after second) :
    Passes surplus depth (Lined rest) after (.seq first second) :=
  Leads.seq (runRule_keeps grammar depth) _ (passes_inline rest h) fun _ => hsecond

private theorem passes_ask (hsees : shape [] → surplus.Begins ∧ askable kinds = true) :
    Passes surplus depth shape
      (fun answer tokens => shape tokens ∧ kinds.contains (Token.nextKind tokens) = answer)
      (.ask (.at kinds)) := by
  refine Leads.ask (fun hshape => .inr ?_) fun tokens hshape => ⟨hshape, rfl⟩
  obtain ⟨hbegins, hask⟩ := hsees hshape
  have hall := List.all_eq_true.mp hask
  exact ⟨fun hmem => absurd (hall _ hmem) (by decide),
    fun hmem => hbegins (List.contains_iff_mem.mp (hall _ hmem))⟩

theorem passes_at {yes no : Production} (hsees : shape [] → surplus.Begins ∧ askable kinds = true)
    (hyes : Passes surplus depth (fun tokens => shape tokens ∧ Token.nextKind tokens ∈ kinds) after
      yes)
    (hno : Passes surplus depth (fun tokens => shape tokens ∧ Token.nextKind tokens ∉ kinds) after
      no) :
    Passes surplus depth shape after (.cond (.ask (.at kinds)) yes no) := by
  refine Leads.cond (runRule_keeps grammar depth) _ (passes_ask hsees)
    (hyes.weaken ?_ fun _ _ => id) (hno.weaken ?_ fun _ _ => id)
  · exact fun tokens hasked => ⟨hasked.1, List.contains_iff_mem.mp hasked.2⟩
  · intro tokens hasked
    refine ⟨hasked.1, fun hmem => ?_⟩
    rw [List.contains_iff_mem.mpr hmem] at hasked
    cases hasked.2

private theorem passes_eat (hsees : shape [] → surplus.Begins ∧ askable [kind] = true)
    (hkind : kind ≠ .endOfInput)
    (hyes : ∀ token tokens, shape (token :: tokens) → token.kind = kind → after true tokens)
    (hno : ∀ tokens, shape tokens → Token.nextKind tokens ≠ kind → after false tokens) :
    Passes surplus depth shape after (eat kind) := by
  refine passes_at hsees (Leads.bump hkind ?_) (Leads.answer ?_)
  · exact fun token tokens hshape hsame => hyes token tokens hshape.1 hsame
  · exact fun tokens hshape => hno tokens hshape.1 fun hsame => hshape.2 (by simp [hsame])

private theorem passes_whenAt {script : Production} (hsees : shape [] → surplus.Begins ∧ askable kinds = true)
    (h : Passes surplus depth (fun tokens => shape tokens ∧ Token.nextKind tokens ∈ kinds)
      (fun _ => shape) script) :
    Passes surplus depth shape (fun _ => shape) (whenAt kinds script) :=
  passes_at hsees h (Leads.answer fun _ hshape => hshape.1)

private theorem passes_whileAt {script : Production} (hsees : shape [] → surplus.Begins ∧ askable kinds = true)
    (h : Passes surplus depth (fun tokens => shape tokens ∧ Token.nextKind tokens ∈ kinds)
      (fun _ => shape) script) :
    Passes surplus depth shape (fun _ => shape) (whileAt kinds script) := by
  have hkeeps := runRule_keeps grammar depth
  refine Leads.loop hkeeps (passes_at hsees ?_ (Leads.answer fun _ hshape => hshape.1))
  exact Leads.seq hkeeps _ h fun _ => Leads.answer fun _ => id

end Steps

/-- Where a rule with blocks may be called. -/
def entry (count : Nat) : Rule → List Token → Prop
  | .statement => fun tokens =>
    Ready count tokens ∧ Token.nextKind tokens ∉ [.newline, .dedent, .endOfInput]
  | .elseClause => Ready count
  | .decorated => Unfinished count
  | _ => Lined (Ready count)

/-- Calls of the rules with blocks come to the start of a line and close the blocks that they open. -/
def BlocksKept (surplus : Surplus) (depth : Nat) : Prop :=
  ∀ rule, rule.isInline = false → ∀ count,
    Action.Pairs (Along surplus true (entry count rule)) (fun _ => Along surplus true (Ready count))
      (runRule grammar depth rule)

section Productions

variable {surplus : Surplus} {depth count : Nat} {rest : List Token → Prop}

private theorem lined_of_ready {tokens : List Token} (kinds : List TokenKind)
    (hkinds : ∀ kind ∈ kinds, kind ∉ Token.edges)
    (h : Ready count tokens ∧ Token.nextKind tokens ∈ kinds) : Lined (Ready count) tokens := by
  have hkind := hkinds _ h.2
  cases tokens with
  | nil => exact absurd (by decide) hkind
  | cons token tokens => exact h.1.lined hkind

/-- The end of a simple statement is reached. -/
private def Ended (rest : List Token → Prop) (tokens : List Token) : Prop :=
  Lined rest tokens ∧ Token.nextKind tokens ∈ Parse.statementEnds

private theorem passes_ended {kind : NodeKind} {body : Production} (known : Bool)
    (h : (body.spares [.newline] Rule.isInline known).isSome = true) :
    Passes surplus depth (Known [.newline] (Lined rest) known) (fun _ => Ended rest)
      (Script.statement kind body) := by
  have hguards : Guards surplus [.newline] (Lined rest) := guards_lined rest
  obtain ⟨flags, hflags⟩ := Option.isSome_iff_exists.mp h
  have hbody := (leads_of_spares hguards (by decide) (runRule_keeps grammar depth)
    (fun rule hrule => pairs_inline rest depth hrule) body hflags).weaken (fun _ => id)
    fun _ _ hknown => hknown.1
  refine Leads.statement hguards.sees ?_ hbody fun _ hlined hends => ⟨hlined, hends⟩
  refine fun token tokens hlined hgoes => hguards.takes token tokens hlined fun hmem => hgoes ?_
  rw [List.mem_singleton.mp hmem]
  decide

private theorem passes_begun {kind : NodeKind} {body : Production}
    (h : (body.spares [.newline] Rule.isInline false).isSome = true) :
    Passes surplus depth (Lined rest) (fun _ => Ended rest) (Script.statement kind body) :=
  (passes_ended false h).weaken (fun _ => Known.unknown) fun _ _ => id

private theorem not_lined_nil {tokens : List Token} (h : Lined rest tokens) : tokens ≠ [] :=
  fun hnil => h.nextKind (hnil ▸ rfl)

private theorem passes_choice {kinds : List TokenKind} {yes no : Production}
    {after : Bool → List Token → Prop} (hyes : Passes surplus depth (Lined rest) after yes)
    (hno : Passes surplus depth (Lined rest) after no) :
    Passes surplus depth (Lined rest) after (.cond (.ask (.at kinds)) yes no) :=
  passes_at (fun hlined => absurd rfl (not_lined_nil hlined))
    (hyes.weaken (fun _ hlined => hlined.1) fun _ _ => id)
    (hno.weaken (fun _ hlined => hlined.1) fun _ _ => id)

private theorem passes_simpleStatement :
    Passes surplus depth (Lined rest) (fun _ => Ended rest) simpleStatement := by
  have hscope : Passes surplus depth (Lined rest) (fun _ => Ended rest)
      (.cond (.ask (.at [.keyword .globalWord, .keyword .nonlocalWord]))
        (.statement .globalStatement <| .seq .advance <|
          .loop (.seq name (eat (.symbol .comma))))
        (.statement .expressionStatement expressionStatement)) := by
    refine passes_at (fun hlined => absurd rfl (not_lined_nil hlined))
      ((passes_ended true rfl).weaken ?_ fun _ _ => id)
      ((passes_begun rfl).weaken (fun _ hlined => hlined.1) fun _ _ => id)
    intro tokens hlined
    refine ⟨hlined.1, fun _ hmem => ?_⟩
    rw [List.mem_singleton.mp hmem] at hlined
    exact absurd hlined.2 (by decide)
  exact
    passes_choice (passes_begun rfl) <| passes_choice (passes_begun rfl) <|
    passes_choice (passes_begun rfl) <| passes_choice (passes_begun rfl) <|
    passes_choice (passes_begun rfl) <| passes_choice (passes_begun rfl) <|
    passes_choice (passes_begun rfl) <| passes_choice (passes_begun rfl) <|
    passes_choice (passes_begun rfl) hscope

private theorem pairs_simpleStatement (depth : Nat) :
    Action.Pairs (Along surplus true (Lined rest)) (fun _ => Along surplus true (Ended rest))
      (runRule grammar depth .simpleStatement) := by
  cases depth with
  | zero =>
    intro p q _ hfault
    cases hfault
  | succ depth => exact passes_simpleStatement

private theorem newline_of_ended {tokens : List Token} (h : Lined rest tokens)
    (hends : Token.nextKind tokens ∈ [TokenKind.newline, .endOfInput]) :
    Token.nextKind tokens = .newline := by
  rcases List.mem_cons.mp hends with hnewline | hend
  · exact hnewline
  · exact absurd (List.mem_singleton.mp hend) h.nextKind

private theorem passes_simpleLine : Passes surplus depth (Lined rest) (fun _ => rest) simpleLine := by
  have hkeeps := runRule_keeps grammar depth
  refine Leads.seq hkeeps (fun _ tokens => Lined rest tokens ∧
    Token.nextKind tokens = .newline) (Leads.loop hkeeps ?_) fun _ => ?_
  · have hguards : Guards surplus [.newline] (Lined rest) := guards_lined rest
    refine Leads.seq hkeeps _ (Leads.call (pairs_simpleStatement depth)) fun _ => ?_
    refine Leads.cond hkeeps (fun answer tokens =>
      if answer then Lined rest tokens else Lined rest tokens ∧ Token.nextKind tokens = .newline)
      (passes_eat (fun h => absurd rfl (not_lined_nil h.1)) (by decide) ?_ ?_) ?_ ?_
    · exact fun token tokens h hkind => hguards.takes token tokens h.1 (by rw [hkind]; decide)
    · refine fun tokens h hkind => ⟨h.1, newline_of_ended h.1 ?_⟩
      have hmem := h.2
      simp only [Parse.statementEnds, List.mem_cons, List.not_mem_nil, or_false] at hmem ⊢
      rcases hmem with hmem | hmem | hmem
      · exact .inl hmem
      · exact .inr hmem
      · exact absurd hmem hkind
    · refine passes_at (fun h => absurd rfl (not_lined_nil h)) (Leads.answer ?_)
        (Leads.answer fun tokens h => h.1)
      exact fun tokens h => ⟨h.1, newline_of_ended h.1 h.2⟩
    · exact Leads.answer fun tokens h => h
  · refine passes_at (fun h => absurd rfl (not_lined_nil h.1)) (Leads.answer ?_) ?_
    · exact fun tokens h => absurd (List.mem_singleton.mp h.2) h.1.1.nextKind
    · refine passes_at (fun h => absurd rfl (not_lined_nil h.1.1)) (Leads.bump (by decide) ?_)
        (Leads.report ?_)
      · exact fun token tokens h hkind => h.1.1.1.stop hkind
      · exact fun tokens h => absurd (List.mem_singleton.mpr h.1.1.2) h.2

private theorem passes_statements (hblocks : BlocksKept surplus depth) :
    Passes surplus depth (Ready (count + 1))
      (fun _ tokens => Ready (count + 1) tokens ∧ Token.nextKind tokens ∈ [.dedent, .endOfInput])
      (.loop <| .cond (.ask (.at [.dedent, .endOfInput])) (.answer false) <|
        .cond (next .newline) (.bump .newline) (.seq (.call .statement) (.answer true))) := by
  have hkeeps := runRule_keeps grammar depth
  have hsees : ¬Ready (count + 1) [] := fun hready => absurd hready.nil (Nat.succ_ne_zero count)
  refine Leads.loop hkeeps (passes_at (fun h => absurd h hsees) (Leads.answer fun _ => id) ?_)
  refine passes_at (fun h => absurd h.1 hsees) (Leads.bump (by decide) ?_) ?_
  · intro token tokens h hkind
    rcases h.1.1.kind with hdedent | hindent | hinline
    · rw [hkind] at hdedent
      cases hdedent
    · rw [hkind] at hindent
      cases hindent
    · exact absurd (by rw [hkind]; decide) hinline.2
  · refine Leads.seq hkeeps (fun _ => Ready (count + 1))
      ((Leads.call (hblocks .statement rfl (count + 1))).weaken ?_ fun _ _ => id)
      fun _ => Leads.answer fun _ => id
    intro tokens h
    refine ⟨h.1.1, fun hmem => ?_⟩
    rcases List.mem_cons.mp hmem with hnewline | hother
    · exact h.2 (List.mem_singleton.mpr hnewline)
    · exact h.1.2 hother

private theorem passes_suite (hbegins : surplus.Begins) (hblocks : BlocksKept surplus depth) :
    Passes surplus depth (Lined (Ready count)) (fun _ => Ready count) suite := by
  have hkeeps := runRule_keeps grammar depth
  refine Leads.node (Leads.cond hkeeps (fun answer =>
    if answer then Ready count else Lined (Ready count))
    (passes_eat (fun h => absurd rfl (not_lined_nil h)) (by decide)
      (fun _ _ h hkind => h.stop hkind) fun _ h _ => h) ?_ ?_)
  · refine Leads.cond hkeeps (fun answer =>
      if answer then Ready (count + 1) else Ready count)
      (passes_eat (fun _ => ⟨hbegins, rfl⟩) (by decide) (fun _ _ h hkind => h.indent hkind)
        fun _ h _ => h) ?_ (Leads.report fun _ => id)
    refine Leads.seq hkeeps _ (passes_statements hblocks) fun _ => ?_
    refine passes_eat (fun h => absurd h.1.nil (Nat.succ_ne_zero count)) (by decide)
      (fun _ _ h hkind => h.1.dedent hkind) ?_
    exact fun tokens h _ => h.1.less
  · refine passes_at (fun h => absurd rfl (not_lined_nil h)) (Leads.answer ?_)
      ((Leads.call (hblocks .simpleLine rfl count)).weaken (fun _ h => h.1) fun _ _ => id)
    exact fun tokens h => absurd (List.mem_singleton.mp h.2) h.1.nextKind

private theorem passes_block (hblocks : BlocksKept surplus depth) :
    Passes surplus depth (Lined (Ready count)) (fun _ => Ready count) block :=
  passes_first rfl (Leads.call (hblocks .suite rfl count))

private theorem passes_conditionAndBlock (hblocks : BlocksKept surplus depth) :
    Passes surplus depth (Lined (Ready count)) (fun _ => Ready count) conditionAndBlock :=
  passes_first rfl (passes_block hblocks)

private theorem passes_elseClause (hbegins : surplus.Begins) (hblocks : BlocksKept surplus depth) :
    Passes surplus depth (Ready count) (fun _ => Ready count) elseClause := by
  refine passes_whenAt (fun _ => ⟨hbegins, rfl⟩) (Leads.node ?_)
  exact (passes_first rfl (passes_block hblocks)).weaken
    (fun _ => lined_of_ready _ (by decide)) fun _ _ => id

private theorem passes_ifStatement (hbegins : surplus.Begins) (hblocks : BlocksKept surplus depth) :
    Passes surplus depth (Lined (Ready count)) (fun _ => Ready count) ifStatement := by
  have hkeeps := runRule_keeps grammar depth
  refine passes_first rfl (Leads.node (passes_first rfl ?_))
  refine Leads.seq hkeeps _ (passes_conditionAndBlock hblocks) fun _ => ?_
  refine Leads.seq hkeeps _ (passes_whileAt (fun _ => ⟨hbegins, rfl⟩) (Leads.node ?_))
    fun _ => Leads.call (hblocks .elseClause rfl count)
  exact (passes_first rfl (passes_conditionAndBlock hblocks)).weaken
    (fun _ => lined_of_ready _ (by decide)) fun _ _ => id

private theorem passes_whileStatement (hblocks : BlocksKept surplus depth) :
    Passes surplus depth (Lined (Ready count)) (fun _ => Ready count) whileStatement := by
  refine passes_first rfl (Leads.node (passes_first rfl ?_))
  exact Leads.seq (runRule_keeps grammar depth) _ (passes_conditionAndBlock hblocks) fun _ =>
    Leads.call (hblocks .elseClause rfl count)

private theorem passes_forStatement (hblocks : BlocksKept surplus depth) :
    Passes surplus depth (Lined (Ready count)) (fun _ => Ready count) forStatement := by
  refine passes_first rfl (Leads.node (passes_first rfl (passes_first rfl ?_)))
  refine passes_first rfl (passes_first rfl ?_)
  exact Leads.seq (runRule_keeps grammar depth) _ (passes_block hblocks) fun _ =>
    Leads.call (hblocks .elseClause rfl count)

private theorem passes_withStatement (hblocks : BlocksKept surplus depth) :
    Passes surplus depth (Lined (Ready count)) (fun _ => Ready count) withStatement :=
  passes_first rfl (Leads.node (passes_first rfl (passes_first rfl (passes_block hblocks))))

private theorem passes_exceptClause (count : Nat) (hblocks : BlocksKept surplus depth) :
    Passes surplus depth
      (fun tokens => Ready count tokens ∧ Token.nextKind tokens ∈ [.keyword .exceptWord])
      (fun _ => Ready count) exceptClause :=
  Leads.node ((passes_first rfl (passes_first rfl (passes_block hblocks))).weaken
    (fun _ => lined_of_ready _ (by decide)) fun _ _ => id)

private theorem passes_finallyClause (count : Nat) (hblocks : BlocksKept surplus depth) :
    Passes surplus depth
      (fun tokens => Ready count tokens ∧ Token.nextKind tokens ∈ [.keyword .finallyWord])
      (fun _ => Ready count) finallyClause :=
  Leads.node ((passes_first rfl (passes_block hblocks)).weaken
    (fun _ => lined_of_ready _ (by decide)) fun _ _ => id)

private theorem passes_tryStatement (hbegins : surplus.Begins) (hblocks : BlocksKept surplus depth) :
    Passes surplus depth (Lined (Ready count)) (fun _ => Ready count) tryStatement := by
  have hkeeps := runRule_keeps grammar depth
  have hexcept := passes_exceptClause count hblocks
  have hfinally := passes_finallyClause count hblocks
  refine passes_first rfl (Leads.node (passes_first rfl ?_))
  refine Leads.seq hkeeps _ (passes_block hblocks) fun _ => ?_
  refine passes_at (fun _ => ⟨hbegins, rfl⟩) ?_ ?_
  · refine Leads.seq hkeeps _ ((passes_whileAt (fun _ => ⟨hbegins, rfl⟩) hexcept).weaken
      (fun _ hready => hready.1) fun _ _ => id) fun _ => ?_
    exact Leads.seq hkeeps _ (Leads.call (hblocks .elseClause rfl count)) fun _ =>
      passes_whenAt (fun _ => ⟨hbegins, rfl⟩) hfinally
  · refine passes_at (fun _ => ⟨hbegins, rfl⟩) ?_ (Leads.report fun _ hready => hready.1.1)
    exact hfinally.weaken (fun _ hready => ⟨hready.1.1, hready.2⟩) fun _ _ => id

private theorem passes_functionBody (hblocks : BlocksKept surplus depth) :
    Passes surplus depth (Lined (Ready count)) (fun _ => Ready count) functionBody := by
  refine passes_first rfl (passes_first rfl (passes_first rfl ?_))
  exact passes_first rfl (passes_block hblocks)

private theorem passes_classBody (hblocks : BlocksKept surplus depth) :
    Passes surplus depth (Lined (Ready count)) (fun _ => Ready count) classBody :=
  passes_first rfl (passes_first rfl (passes_first rfl (passes_block hblocks)))

private theorem passes_expectNewline :
    Passes surplus depth (Lined (Unfinished count)) (fun _ => Unfinished count)
      (expect .newline) := by
  refine Leads.cond (runRule_keeps grammar depth)
    (fun answer tokens => Lined (Unfinished count) tokens ∧
      [TokenKind.newline].contains (Token.nextKind tokens) = answer)
    (Leads.ask (fun hlined => absurd rfl hlined.nextKind) fun _ hlined => ⟨hlined, rfl⟩)
    (Leads.bump (by decide) ?_) (Leads.report ?_)
  · exact fun token tokens hlined hkind => hlined.1.stop hkind
  · intro tokens hlined
    refine hlined.1.unfinished fun hkind => ?_
    rw [hkind] at hlined
    exact absurd hlined.2 (by decide)

/-- The line of a decorator is not the last one, so the tokens go on when the definition is looked
for. -/
private theorem passes_decorated (hblocks : BlocksKept surplus depth) :
    Passes surplus depth (Unfinished count) (fun _ => Ready count) decorated := by
  have hkeeps := runRule_keeps grammar depth
  have hdecorator : Passes surplus depth
      (fun tokens => Unfinished count tokens ∧ Token.nextKind tokens ∈ [.symbol .at])
      (fun _ => Unfinished count) (.node (.always .decorator) (steps
        [.bump (.symbol .at), .call .expression, expect .newline])) := by
    refine Leads.node ((passes_first rfl (passes_first rfl passes_expectNewline)).weaken ?_
      fun _ _ => id)
    rintro tokens ⟨⟨hready, hne⟩, hkind⟩
    cases tokens with
    | nil => exact absurd rfl hne
    | cons token tokens => exact hready.decorator (List.mem_singleton.mp hkind)
  have hdefinition {word : Keyword} {tokens : List Token}
      (h : Unfinished count tokens ∧ Token.nextKind tokens ∈ [.keyword word]) :
      Lined (Ready count) tokens :=
    lined_of_ready [.keyword word] (by simp [Token.edges]) ⟨h.1.1, h.2⟩
  have hsees : ¬Unfinished count [] := fun hunfinished => hunfinished.2 rfl
  refine Leads.seq hkeeps (fun _ => Unfinished count)
    (Leads.demand (fun h => absurd h hsees) fun _ h _ => h) fun _ => Leads.node ?_
  refine Leads.seq hkeeps _ (passes_whileAt (fun h => absurd h hsees) hdecorator) fun _ => ?_
  refine passes_at (fun h => absurd h hsees)
    ((passes_functionBody hblocks).weaken (fun _ => hdefinition) fun _ _ => id) ?_
  refine passes_at (fun h => absurd h.1 hsees)
    ((passes_classBody hblocks).weaken (fun _ h => hdefinition ⟨h.1.1, h.2⟩) fun _ _ => id) ?_
  exact Leads.report fun _ h => h.1.1.1

private theorem passes_compound {word : Keyword} {rule : Rule} {others : Production}
    (hrule : Passes surplus depth (Lined (Ready count)) (fun _ => Ready count) (.call rule))
    (hothers : Passes surplus depth (entry count .statement) (fun _ => Ready count) others) :
    Passes surplus depth (entry count .statement) (fun _ => Ready count)
      (.cond (next (.keyword word)) (.call rule) others) := by
  refine passes_at (fun h => absurd (by decide) h.2) (hrule.weaken ?_ fun _ _ => id)
    (hothers.weaken (fun _ h => h.1) fun _ _ => id)
  exact fun tokens h => lined_of_ready [.keyword word] (by simp [Token.edges])
    ⟨h.1.1, h.2⟩

private theorem passes_statement (hblocks : BlocksKept surplus depth) :
    Passes surplus depth (entry count .statement) (fun _ => Ready count) Production.statement := by
  have hsees : ¬entry count .statement [] := fun h => h.2 (by decide)
  have hcall (rule : Rule) (h : rule.isInline = false)
      (hentry : entry count rule = Lined (Ready count)) :
      Passes surplus depth (Lined (Ready count)) (fun _ => Ready count) (.call rule) :=
    (Leads.call (hblocks rule h count)).weaken (fun _ => hentry ▸ id) fun _ _ => id
  refine passes_compound (hcall .function rfl rfl) <| passes_compound (hcall .classDefinition rfl rfl) <|
    passes_compound (hcall .ifStatement rfl rfl) <| passes_compound (hcall .whileStatement rfl rfl) <|
    passes_compound (hcall .forStatement rfl rfl) <| passes_compound (hcall .withStatement rfl rfl) <|
    passes_compound (hcall .tryStatement rfl rfl) ?_
  refine passes_at (fun h => absurd h hsees)
    ((Leads.call (hblocks .decorated rfl count)).weaken ?_ fun _ _ => id) ?_
  · rintro tokens ⟨h, _⟩
    refine ⟨h.1, ?_⟩
    rintro rfl
    exact hsees h
  refine passes_at (fun h => absurd h.1 hsees) ?_
    ((hcall .simpleLine rfl rfl).weaken ?_ fun _ _ => id)
  · refine Leads.node (Leads.seq (runRule_keeps grammar depth)
      (fun _ tokens => Ready count tokens ∧ Token.nextKind tokens = .indent)
      (Leads.report fun _ h => ⟨h.1.1.1, List.mem_singleton.mp h.2⟩) fun _ => ?_)
    refine Leads.advance ?_ ?_ fun token tokens h _ => (h.1.indent h.2).less
    · exact fun h => absurd h.2 (by decide)
    · exact fun tokens h hend => absurd (h.2.symm.trans hend) (by decide)
  · rintro tokens ⟨⟨⟨hready, hkind⟩, _⟩, hindent⟩
    cases tokens with
    | nil => exact absurd (by decide) hkind
    | cons token tokens =>
      rcases hready.kind with hdedent | hopens | hinline
      · exact absurd (show token.kind ∈ _ by rw [hdedent]; decide) hkind
      · exact absurd (List.mem_singleton.mpr hopens) hindent
      · exact hready.lined hinline.2

/-- The suites that are opened on the way to the end of the first text are closed there. -/
theorem blocksKept (hbegins : surplus.Begins) (depth : Nat) : BlocksKept surplus depth := by
  induction depth with
  | zero =>
    intro rule _ count p q _ hfault
    cases hfault
  | succ depth ih =>
    intro rule hrule count
    cases rule with
    | statement => exact passes_statement ih
    | simpleLine => exact passes_simpleLine
    | function => exact passes_first rfl (Leads.node (passes_functionBody ih))
    | classDefinition => exact passes_first rfl (Leads.node (passes_classBody ih))
    | decorated => exact passes_decorated ih
    | ifStatement => exact passes_ifStatement hbegins ih
    | whileStatement => exact passes_whileStatement ih
    | forStatement => exact passes_forStatement ih
    | withStatement => exact passes_withStatement ih
    | tryStatement => exact passes_tryStatement hbegins ih
    | elseClause => exact passes_elseClause hbegins ih
    | suite => exact passes_suite hbegins ih
    | _ => cases hrule

end Productions

end Script

end Syntax

end QuantumScript
