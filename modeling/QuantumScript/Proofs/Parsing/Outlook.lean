import Mathlib.Data.List.Chain
import QuantumScript.Proofs.Parsing.Balance
/-!
# Places of block ends

A block end comes after the end of a line or after another block end. So where a script has taken another
token, none can come next. An outlook tells what may come after a script, given what may come before it.
With it, no script but that of a suite or of the file takes a block end.
-/

namespace QuantumScript

namespace Syntax

namespace TokenKind

/-- A block end comes after the end of a line or after a block end. -/
def Leads (kind next : TokenKind) : Prop := next = .dedent → kind ∈ [.newline, .dedent]

/-- Whatever comes after a token of the kind. -/
def followers (kind : TokenKind) : Kinds :=
  if [.newline, .dedent].contains kind then .except [] else .except [.dedent]

theorem Leads.allows {kind next : TokenKind} (h : kind.Leads next) : kind.followers.allows next = true := by
  unfold followers
  split
  · exact Kinds.allows_all _
  · rename_i hother
    rw [Kinds.allows_except]
    simp only [List.contains_cons, List.contains_nil, Bool.or_false, Bool.not_eq_true', beq_eq_false_iff_ne]
    exact fun hend => hother (List.contains_iff_mem.mpr (h hend))

end TokenKind

namespace Layout

open TokenKind

section Lines

variable {kind next : TokenKind} {rest : List TokenKind}

private theorem leads_line (hnext : next ≠ .dedent) (hrest : (next :: rest).IsChain Leads) :
    (kind :: next :: rest).IsChain Leads :=
  .cons_cons (fun hend => absurd hend hnext) hrest

private theorem leads_unindent (hkind : kind ∈ [.newline, .dedent]) (hnext : next ≠ .dedent)
    (hrest : (next :: rest).IsChain Leads) (width : Nat) (blocks : List Nat) :
    (kind :: ((unindent width blocks).1.map Token.kind ++ next :: rest)).IsChain Leads := by
  have hstray (kind : TokenKind) : (kind :: .indent :: next :: rest).IsChain Leads :=
    leads_line (by decide) (leads_line hnext hrest)
  induction blocks generalizing kind with
  | nil =>
    unfold unindent
    split
    · exact leads_line hnext hrest
    · exact hstray kind
  | cons block blocks ih =>
    unfold unindent
    split
    · exact .cons_cons (fun _ => hkind) (ih (by decide))
    · split
      · exact leads_line hnext hrest
      · exact hstray kind

private theorem leads_reindent (hkind : kind ∈ [.newline, .dedent]) (hnext : next ≠ .dedent)
    (hrest : (next :: rest).IsChain Leads) (width : Nat) (blocks : List Nat) :
    (kind :: ((reindent width blocks).1.map Token.kind ++ next :: rest)).IsChain Leads := by
  unfold reindent
  split
  · exact leads_line (by decide) (leads_line hnext hrest)
  · exact leads_unindent hkind hnext hrest width blocks

private theorem leads_finish (hkind : kind ∈ [.newline, .dedent]) (blocks : List Nat) :
    (kind :: (blocks.map fun _ => Token.dedent).map Token.kind).IsChain Leads := by
  induction blocks generalizing kind with
  | nil => exact .singleton _
  | cons block blocks ih => exact .cons_cons (fun _ => hkind) (ih (List.mem_cons_of_mem _ List.mem_cons_self))

end Lines

private theorem significant_unindent (width : Nat) (blocks : List Nat) :
    Token.significant (unindent width blocks).1 = (unindent width blocks).1 := by
  induction blocks with
  | nil =>
    unfold unindent
    split <;> rfl
  | cons block blocks ih =>
    unfold unindent
    split
    · exact congrArg (Token.dedent :: ·) ih
    · split <;> rfl

private theorem significant_reindent (width : Nat) (blocks : List Nat) :
    Token.significant (reindent width blocks).1 = (reindent width blocks).1 := by
  unfold reindent
  split
  · rfl
  · exact significant_unindent width blocks

private theorem significant_finish (blocks : List Nat) :
    Token.significant (blocks.map fun _ => Token.dedent) = blocks.map fun _ => Token.dedent := by
  induction blocks with
  | nil => rfl
  | cons block blocks ih => exact congrArg (Token.dedent :: ·) ih

private theorem leads_tokens (layout : Layout) (lexemes : List Lexeme) {kind : TokenKind}
    (h : layout.atLineStart = true → kind ∈ [.newline, .dedent]) :
    (kind :: (Token.significant (layout.tokens lexemes)).map Token.kind).IsChain Leads := by
  induction lexemes generalizing layout kind with
  | nil =>
    rw [tokens, finish, Token.significant_append, significant_finish]
    split
    · exact leads_finish (h ‹_›) layout.blocks
    · exact leads_line (by decide) (leads_finish (by decide) layout.blocks)
  | cons lexeme lexemes ih =>
    rw [tokens, Token.significant_append, List.map_append]
    unfold step
    dsimp only
    split
    · rename_i hblank
      rw [Token.significant_cons_trivia (by rw [hblank]; rfl)]
      exact ih _ h
    · rename_i hcomment
      rw [Token.significant_cons_trivia (by rw [hcomment]; rfl)]
      exact ih _ h
    · rename_i hnewline
      split
      · rename_i hsilent
        refine ih _ fun hstart => h ?_
        rw [Bool.or_eq_true, decide_eq_true_eq] at hsilent hstart
        exact hstart.elim id fun hnone => hsilent.resolve_left (by omega)
      · rw [Token.significant_cons_solid (by rw [hnewline]; rfl), List.map_cons, hnewline]
        exact leads_line (by decide) (ih _ fun _ => by decide)
    · rename_i hblank hcomment _
      have hnext : (Token.ofLexeme lexeme).kind ≠ .dedent := fun hkind =>
        Token.kind_ofLexeme lexeme (by simp [hkind])
      have hsolid : (Token.ofLexeme lexeme).kind.isTrivia = false := by
        unfold TokenKind.isTrivia
        split
        · exact absurd ‹_› hblank
        · exact absurd ‹_› hcomment
        · rfl
      rw [Token.significant_append, Token.significant_cons_solid hsolid, List.map_append, List.append_assoc]
      have hrest (next : Layout) (hinside : next.atLineStart = false) :
          ((Token.ofLexeme lexeme).kind :: (Token.significant (next.tokens lexemes)).map Token.kind).IsChain
            Leads :=
        ih next fun hstart => absurd (hinside.symm.trans hstart) Bool.false_ne_true
      split
      · rw [significant_reindent]
        exact leads_reindent (h ‹_›) hnext (hrest _ rfl) _ _
      · exact leads_line hnext (hrest _ rfl)

end Layout

private theorem Token.leads_ofText (text : List Char) :
    ((significant (ofText text)).map Token.kind).IsChain TokenKind.Leads :=
  (Layout.leads_tokens Layout.start (Lexeme.ofText text) (fun _ => List.mem_cons_self)).tail

namespace Tree

/-- Tokens of the kind among the trees. -/
def direct (kind : TokenKind) (trees : List Tree) : Nat :=
  trees.countP fun tree => tree.tokenKind? = some kind

/-- No block end stands directly in a node but a suite. -/
def Sheltered (kind : NodeKind) (children : List Tree) : Prop := kind ≠ .suite → direct .dedent children = 0

theorem direct_reverse (kind : TokenKind) (trees : List Tree) : direct kind trees.reverse = direct kind trees :=
  List.countP_reverse

theorem direct_append (kind : TokenKind) (trees others : List Tree) :
    direct kind (trees ++ others) = direct kind trees + direct kind others :=
  List.countP_append

theorem direct_node (kind : TokenKind) (nodeKind : NodeKind) (children others : List Tree) :
    direct kind (.node nodeKind children :: others) = direct kind others :=
  List.countP_cons_of_neg (by simp [tokenKind?])

theorem direct_leaf (kind : TokenKind) (token : Token) (others : List Tree) :
    direct kind (token.leaf :: others) = direct kind others + if token.kind = kind then 1 else 0 := by
  simp [direct, List.countP_cons, Token.leaf, tokenKind?]

end Tree

namespace Script

variable {Rule : Type}

/-- No block end comes next. -/
def inLine : Kinds := .except [.dedent]

/-- How a script can answer and what may come after it, given what may come before it and what may come after
the rules. -/
def outlook (after : Rule → Kinds) : Script Rule → Kinds → List (Bool × Kinds)
  | .answer value, known => [(value, known)]
  | .bump kind, _ => [(true, kind.followers)]
  | .demand kinds, known => [(true, known.meet (.among kinds))]
  | .advance, known =>
    [(true, if known.implies (.except [.newline, .dedent]) then inLine else .except [])]
  | .report _, known => [(false, known)]
  | .ask (.at kinds), known => [(true, known.meet (.among kinds)), (false, known.meet (.except kinds))]
  | .ask (.atPair _ _), known => [(true, known), (false, known)]
  | .call rule, _ => [(true, after rule), (false, after rule)]
  | .seq first second, known =>
    ((outlook after first known).flatMap fun outcome => outlook after second outcome.2).eraseDups
  | .cond test yes no, known =>
    ((outlook after test known).flatMap fun outcome =>
      if outcome.1 then outlook after yes outcome.2 else outlook after no outcome.2).eraseDups
  | .node _ body, known | .wrap _ body, known =>
    ((outlook after body known).map fun outcome => (true, outcome.2)).eraseDups
  | .statement _ _, _ => [(true, inLine)]
  | .loop body, known =>
    (outlook after body
      (if known.implies inLine && (outlook after body inLine).all fun outcome =>
          !outcome.1 || outcome.2.implies inLine then inLine else .except [])).map
      fun outcome => (true, outcome.2)

/-- What may come before a round of a loop. -/
def roundAhead (after : Rule → Kinds) (body : Script Rule) (known : Kinds) : Kinds :=
  if known.implies inLine && (outlook after body inLine).all fun outcome =>
    !outcome.1 || outcome.2.implies inLine then inLine else .except []

/-- The script takes no block end, save where block ends are free to take. The rules that may be called
there are given, and what may come before each rule. -/
def shelters (before after : Rule → Kinds) (inliners : Rule → Bool) : Bool → Script Rule → Kinds → Bool
  | free, .bump kind, _ => free || decide (kind ≠ .dedent)
  | free, .advance, known => free || known.implies inLine
  | free, .call rule, known => known.implies (before rule) && (!free || inliners rule)
  | free, .seq first second, known =>
    shelters before after inliners free first known &&
      (outlook after first known).all fun outcome => shelters before after inliners free second outcome.2
  | free, .cond test yes no, known =>
    shelters before after inliners free test known &&
      (outlook after test known).all fun outcome =>
        if outcome.1 then shelters before after inliners free yes outcome.2
        else shelters before after inliners free no outcome.2
  | _, .node label body, known => shelters before after inliners (decide (label = .always .suite)) body known
  | free, .wrap _ body, known => !free && shelters before after inliners false body known
  | _, .statement _ body, known =>
    shelters before after inliners false body known &&
      (outlook after body known).all fun outcome => outcome.2.implies inLine
  | free, .loop body, known => shelters before after inliners free body (roundAhead after body known)
  | _, _, _ => true

end Script

namespace Rule

/-- Rules that add whole nodes and marks only. -/
def inlines : Rule → Bool
  | .statement | .simpleLine | .simpleStatement | .function | .classDefinition | .decorated | .ifStatement
  | .whileStatement | .forStatement | .withStatement | .tryStatement | .elseClause => true
  | _ => false

/-- What may come before a rule. -/
def before : Rule → Kinds
  | .elseClause => .except []
  | _ => Script.inLine

/-- What may come after a rule. -/
def after : Rule → Kinds
  | .statement | .simpleLine | .suite | .function | .classDefinition | .decorated | .ifStatement
  | .whileStatement | .forStatement | .withStatement | .tryStatement | .elseClause => .except []
  | _ => Script.inLine

end Rule

namespace Sketch

/-- Block ends stand only where they may: in suites, and directly among the parts if they are free to take. -/
structure Sheltered (free : Bool) (sketch : Sketch) : Prop where
  leads : (sketch.rest.map Token.kind).IsChain TokenKind.Leads
  each : ∀ tree ∈ sketch.parts, tree.Each Tree.Sheltered
  direct : free = false → Tree.direct .dedent sketch.parts = 0

namespace Sheltered

variable {sketch after : Sketch} {free : Bool}

theorem begin (h : sketch.Sheltered free) (inner : Bool) : Sheltered inner { sketch with parts := [] } :=
  ⟨h.leads, nofun, fun _ => rfl⟩

theorem take (h : sketch.Sheltered free) (hcurrent : free = true ∨ sketch.current ≠ .dedent) :
    sketch.take.Sheltered free ∧ sketch.current.followers.allows sketch.take.current = true := by
  obtain ⟨rest, parts, problems⟩ := sketch
  cases rest with
  | nil =>
    have hend : TokenKind.Leads .endOfInput .endOfInput := nofun
    exact ⟨h, hend.allows⟩
  | cons token rest =>
    refine ⟨⟨h.leads.tail, Sketch.each_take h.each, fun hfree => ?_⟩, ?_⟩
    · have hother : token.kind ≠ .dedent := hcurrent.resolve_left (by simp [hfree])
      exact (Tree.direct_leaf _ token parts).trans (by rw [if_neg hother]; exact h.direct hfree)
    · cases rest with
      | nil =>
        have hend : TokenKind.Leads token.kind .endOfInput := nofun
        exact hend.allows
      | cons next rest => exact (List.isChain_cons_cons.mp h.leads).1.allows

theorem skip (h : sketch.Sheltered false) (hcurrent : sketch.current ≠ .dedent) :
    sketch.skip.Sheltered false ∧ sketch.skip.current ≠ .dedent := by
  obtain ⟨rest, parts, problems⟩ := sketch
  induction rest generalizing parts with
  | nil => exact ⟨h, hcurrent⟩
  | cons token rest ih =>
    cases hgoes : goesOn token with
    | false =>
      have hsame : skip ⟨token :: rest, parts, problems⟩ = ⟨token :: rest, parts, problems⟩ := by
        simp [Sketch.skip, hgoes]
      rw [hsame]
      exact ⟨h, hcurrent⟩
    | true =>
      have hstep : skip ⟨token :: rest, parts, problems⟩ = skip ⟨rest, token.leaf :: parts, problems⟩ := by
        simp [Sketch.skip, hgoes]
      obtain ⟨htake, hfollows⟩ := h.take (.inr hcurrent)
      have hline : token.kind ≠ .newline := fun hkind => by simp [goesOn, hkind, Parse.statementEnds] at hgoes
      have hown : token.kind ≠ .dedent := hcurrent
      rw [hstep]
      refine ih _ htake fun hend => ?_
      have hnext : token.kind.followers.allows .dedent = true := hend ▸ hfollows
      rw [TokenKind.followers, if_neg (by simp [hline, hown]), Kinds.allows_except] at hnext
      cases hnext

theorem finishStatement (h : sketch.Sheltered false) (hcurrent : sketch.current ≠ .dedent) (booked : Nat) :
    (sketch.finishStatement booked).Sheltered false ∧ (sketch.finishStatement booked).current ≠ .dedent := by
  unfold Sketch.finishStatement
  split
  · exact ⟨h, hcurrent⟩
  · split
    · exact @skip (sketch.book _) ⟨h.leads, h.each, h.direct⟩ hcurrent
    · exact h.skip hcurrent

theorem node {kind : NodeKind} {inner : Bool} (h : sketch.Sheltered free) (hafter : after.Sheltered inner)
    (hinner : inner = true → kind = .suite) :
    Sheltered free { after with parts := .node kind after.parts.reverse :: sketch.parts } := by
  refine ⟨hafter.leads, List.forall_mem_cons.mpr ⟨.node (fun hkind => ?_) fun tree hmem => ?_, h.each⟩,
    fun hfree => (Tree.direct_node _ _ _ _).trans (h.direct hfree)⟩
  · rw [Tree.direct_reverse]
    exact hafter.direct (Bool.eq_false_iff.mpr fun htrue => hkind (hinner htrue))
  · exact hafter.each tree (List.mem_reverse.mp hmem)

theorem closed {kind : NodeKind} (h : sketch.Sheltered free) (hafter : after.Sheltered false) :
    Sheltered free { after with parts := .node kind after.parts.reverse :: sketch.parts } :=
  h.node hafter fun hfree => absurd hfree Bool.false_ne_true

end Sheltered

end Sketch

namespace Script

variable {Rule : Type} {grammar : Rule → Script Rule} {before after : Rule → Kinds} {inliners : Rule → Bool}

/-- The rules keep to what is said of them. -/
def Outlooks (grammar : Rule → Script Rule) (before after : Rule → Kinds) (inliners : Rule → Bool) : Prop :=
  ∀ rule, (grammar rule).shelters before after inliners false (before rule) = true ∧
    (inliners rule = true → (grammar rule).shelters before after inliners true (before rule) = true) ∧
    ((grammar rule).outlook after (before rule)).all (fun outcome => outcome.2.implies (after rule)) = true

private theorem inLine_allows {kind : TokenKind} (h : kind ≠ .dedent) : inLine.allows kind = true := by
  rw [inLine, Kinds.allows_except]
  simpa using h

private theorem allows_inLine {known : Kinds} {kind : TokenKind} (himplies : known.implies inLine = true)
    (h : known.allows kind = true) : kind ≠ .dedent := by
  have hkind := Kinds.allows_of_implies himplies h
  rintro rfl
  cases hkind

private theorem allows_roundAhead {body : Script Rule} {known : Kinds} {kind : TokenKind}
    (h : known.allows kind = true) : (roundAhead after body known).allows kind = true := by
  unfold roundAhead
  split
  · rename_i hline
    rw [Bool.and_eq_true] at hline
    exact Kinds.allows_of_implies hline.1 h
  · exact Kinds.allows_all _

private theorem roundAhead_next {body : Script Rule} {known later : Kinds} {kind : TokenKind}
    (hmem : (true, later) ∈ outlook after body (roundAhead after body known)) (h : later.allows kind = true) :
    (roundAhead after body known).allows kind = true := by
  unfold roundAhead at hmem ⊢
  split
  · rename_i hline
    rw [if_pos hline] at hmem
    rw [Bool.and_eq_true, List.all_eq_true] at hline
    have himplies : later.implies inLine = true := by simpa using hline.2 _ hmem
    exact Kinds.allows_of_implies himplies h
  · exact Kinds.allows_all _

private theorem roundAhead_roundAhead (body : Script Rule) (known : Kinds) :
    roundAhead after body (roundAhead after body known) = roundAhead after body known := by
  by_cases hline : (known.implies inLine && (outlook after body inLine).all fun outcome =>
      !outcome.1 || outcome.2.implies inLine) = true
  · have hfirst : roundAhead after body known = inLine := if_pos hline
    rw [Bool.and_eq_true] at hline
    rw [hfirst, roundAhead, hline.2]
    rfl
  · have hfirst : roundAhead after body known = .except [] := if_neg hline
    rw [hfirst]
    rfl

private theorem Reads.sheltered (hrules : Outlooks grammar before after inliners) {script : Script Rule}
    {sketch last : Sketch} {answer : Bool} (h : Reads grammar script sketch answer last) {free : Bool}
    {known : Kinds} (hallows : known.allows sketch.current = true)
    (hshelters : script.shelters before after inliners free known = true) (hsketch : sketch.Sheltered free) :
    last.Sheltered free ∧
      ∃ later, (answer, later) ∈ script.outlook after known ∧ later.allows last.current = true := by
  induction h generalizing free known with
  | answer => exact ⟨hsketch, known, List.mem_singleton_self _, hallows⟩
  | @bump kind sketch hcurrent =>
    subst hcurrent
    rw [shelters, Bool.or_eq_true, decide_eq_true_eq] at hshelters
    obtain ⟨htake, hfollows⟩ := hsketch.take hshelters
    exact ⟨htake, _, List.mem_singleton_self _, hfollows⟩
  | demand hcurrent =>
    refine ⟨hsketch, _, List.mem_singleton_self _, ?_⟩
    rw [Kinds.allows_meet, hallows, Kinds.allows_among, hcurrent]
    rfl
  | advance =>
    rw [shelters, Bool.or_eq_true] at hshelters
    obtain ⟨htake, hfollows⟩ := hsketch.take (hshelters.imp_right fun hline => allows_inLine hline hallows)
    refine ⟨htake, _, List.mem_singleton_self _, ?_⟩
    split
    · rename_i hinner
      have hkind := Kinds.allows_of_implies hinner hallows
      rw [Kinds.allows_except, Bool.not_eq_true'] at hkind
      rwa [TokenKind.followers, hkind] at hfollows
    · exact Kinds.allows_all _
  | report => exact ⟨⟨hsketch.leads, hsketch.each, hsketch.direct⟩, known, List.mem_singleton_self _, hallows⟩
  | ask question sketch =>
    refine ⟨hsketch, ?_⟩
    cases question with
    | «at» kinds =>
      rw [Sketch.holds]
      cases hholds : kinds.contains sketch.current with
      | true =>
        refine ⟨_, List.mem_cons_self, ?_⟩
        rw [Kinds.allows_meet, hallows, Kinds.allows_among, hholds]
        rfl
      | false =>
        refine ⟨_, List.mem_cons_of_mem _ List.mem_cons_self, ?_⟩
        rw [Kinds.allows_meet, hallows, Kinds.allows_except, hholds]
        rfl
    | atPair kinds second =>
      refine ⟨known, ?_, hallows⟩
      cases sketch.holds (.atPair kinds second)
      · exact List.mem_cons_of_mem _ List.mem_cons_self
      · exact List.mem_cons_self
  | @call rule sketch last answer _ ih =>
    simp only [shelters, Bool.and_eq_true, Bool.or_eq_true, Bool.not_eq_true'] at hshelters
    obtain ⟨hstrict, hfree, hafter⟩ := hrules rule
    have hrule : (grammar rule).shelters before after inliners free (before rule) = true := by
      cases free with
      | false => exact hstrict
      | true => exact hfree (by simpa using hshelters.2)
    obtain ⟨hlast, later, hmem, hlater⟩ := ih (Kinds.allows_of_implies hshelters.1 hallows) hrule hsketch
    refine ⟨hlast, after rule, ?_, Kinds.allows_of_implies (List.all_eq_true.mp hafter _ hmem) hlater⟩
    cases answer <;> simp [outlook]
  | seq _ _ ihfirst ihsecond =>
    rw [shelters, Bool.and_eq_true, List.all_eq_true] at hshelters
    obtain ⟨hmid, between, hmem, hbetween⟩ := ihfirst hallows hshelters.1 hsketch
    obtain ⟨hlast, later, hmem', hlater⟩ := ihsecond hbetween (hshelters.2 _ hmem) hmid
    exact ⟨hlast, later, List.mem_eraseDups.mpr (List.mem_flatMap.mpr ⟨_, hmem, hmem'⟩), hlater⟩
  | yes _ _ ihtest ihyes =>
    rw [shelters, Bool.and_eq_true, List.all_eq_true] at hshelters
    obtain ⟨hmid, between, hmem, hbetween⟩ := ihtest hallows hshelters.1 hsketch
    obtain ⟨hlast, later, hmem', hlater⟩ := ihyes hbetween (hshelters.2 _ hmem) hmid
    exact ⟨hlast, later, List.mem_eraseDups.mpr (List.mem_flatMap.mpr ⟨_, hmem, hmem'⟩), hlater⟩
  | no _ _ ihtest ihno =>
    rw [shelters, Bool.and_eq_true, List.all_eq_true] at hshelters
    obtain ⟨hmid, between, hmem, hbetween⟩ := ihtest hallows hshelters.1 hsketch
    obtain ⟨hlast, later, hmem', hlater⟩ := ihno hbetween (hshelters.2 _ hmem) hmid
    exact ⟨hlast, later, List.mem_eraseDups.mpr (List.mem_flatMap.mpr ⟨_, hmem, hmem'⟩), hlater⟩
  | @node label _ _ _ _ _ ih =>
    obtain ⟨hlast, later, hmem, hlater⟩ := ih hallows hshelters (hsketch.begin _)
    refine ⟨hsketch.node hlast fun hsuite => ?_, later,
      List.mem_eraseDups.mpr (List.mem_map.mpr ⟨_, hmem, rfl⟩), hlater⟩
    rw [of_decide_eq_true hsuite]
    rfl
  | @wrap kind body rest part parts problems last _ _ ih =>
    simp only [shelters, Bool.and_eq_true, Bool.not_eq_true'] at hshelters
    obtain ⟨rfl, hbody⟩ := hshelters
    obtain ⟨hpart, hparts⟩ := List.forall_mem_cons.mp hsketch.each
    have hsplit : Tree.direct .dedent [part] + Tree.direct .dedent parts = 0 :=
      (Tree.direct_append _ [part] parts).symm.trans (hsketch.direct rfl)
    have hinner : Sketch.Sheltered false ⟨rest, [part], problems⟩ :=
      ⟨hsketch.leads, List.forall_mem_singleton.mpr hpart, fun _ => (Nat.add_eq_zero_iff.mp hsplit).1⟩
    have houter : Sketch.Sheltered false ⟨rest, parts, problems⟩ :=
      ⟨hsketch.leads, hparts, fun _ => (Nat.add_eq_zero_iff.mp hsplit).2⟩
    obtain ⟨hlast, later, hmem, hlater⟩ := ih hallows hbody hinner
    exact ⟨houter.closed hlast, later, List.mem_eraseDups.mpr (List.mem_map.mpr ⟨_, hmem, rfl⟩), hlater⟩
  | statement _ hafter ih =>
    subst hafter
    rw [shelters, Bool.and_eq_true, List.all_eq_true] at hshelters
    obtain ⟨hmid, between, hmem, hbetween⟩ := ih hallows hshelters.1 (hsketch.begin _)
    obtain ⟨hlast, hcurrent⟩ := hmid.finishStatement (allows_inLine (hshelters.2 _ hmem) hbetween) _
    exact ⟨hsketch.closed hlast, inLine, List.mem_singleton_self _, inLine_allows hcurrent⟩
  | stop _ ih =>
    obtain ⟨hlast, later, hmem, hlater⟩ := ih (allows_roundAhead hallows) hshelters hsketch
    exact ⟨hlast, later, List.mem_map.mpr ⟨_, hmem, rfl⟩, hlater⟩
  | @round body _ _ _ _ _ _ _ ihbody ihloop =>
    obtain ⟨hmid, between, hmem, hbetween⟩ := ihbody (allows_roundAhead hallows) hshelters hsketch
    have hagain : (loop body).shelters before after inliners free (roundAhead after body known) = true := by
      rw [shelters, roundAhead_roundAhead]
      exact hshelters
    obtain ⟨hlast, later, hmem', hlater⟩ := ihloop (roundAhead_next hmem hbetween) hagain hmid
    refine ⟨hlast, later, ?_, hlater⟩
    have hsame : (loop body).outlook after (roundAhead after body known) = (loop body).outlook after known := by
      change (outlook after body (roundAhead after body (roundAhead after body known))).map _ =
        (outlook after body (roundAhead after body known)).map _
      rw [roundAhead_roundAhead]
    rwa [hsame] at hmem'

end Script

private theorem Rule.outlooks_grammar : Script.Outlooks grammar Rule.before Rule.after Rule.inlines := by
  intro rule
  cases rule <;> decide

/-- Whatever the source, block ends stand in suites only, save those that the file takes itself. -/
theorem reads_sheltered {text : List Char} {sketch : Sketch} {answer : Bool}
    (h : Script.Reads grammar Production.file ⟨Token.significant (Token.ofText text), [], []⟩ answer sketch) :
    ∀ tree ∈ sketch.parts, tree.Each Tree.Sheltered :=
  have hstart : Sketch.Sheltered true ⟨Token.significant (Token.ofText text), [], []⟩ :=
    ⟨Token.leads_ofText text, nofun, nofun⟩
  (h.sheltered Rule.outlooks_grammar (Kinds.allows_all _) (by decide) hstart).1.each

end Syntax

end QuantumScript
