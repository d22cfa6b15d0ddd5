import QuantumScript.Proofs.Parsing.Outlook
/-!
# Ends of suites

A suite takes one block begin and one block end. Block edges that stand in other nodes are astray: an
indentation that no suite expects becomes an error node, and so does what is skipped after an error. The
suite ends at the first block end that it meets, and that is the one that belongs to the last block begin
astray in it. So a suite ends where its block ends if and only if no block begin is astray in it.
-/

namespace QuantumScript

namespace Syntax

namespace Tree

mutual

/-- Tokens of the kind below the tree that do not stand in a suite. -/
def astray (kind : TokenKind) : Tree → Nat
  | .token _ _ => 0
  | .node nodeKind children =>
    (if nodeKind = .suite then 0 else direct kind children) + astrayAll kind children

def astrayAll (kind : TokenKind) : List Tree → Nat
  | [] => 0
  | tree :: trees => astray kind tree + astrayAll kind trees

end

/-- Kinds of the tokens of trees that stand next to each other. -/
def kinds (trees : List Tree) : List TokenKind := (leavesAll trees).map Prod.fst

/-- A suite that has a block begin is a line end, the block begin, its lines and a block end. The blocks that
its lines leave open are those of the block begins astray in them. -/
def Closes (nodeKind : NodeKind) (children : List Tree) : Prop :=
  nodeKind = .suite → 0 < direct .indent children →
    ∃ stop opening inside closing,
      children = .token .newline stop :: .token .indent opening :: (inside ++ [.token .dedent closing]) ∧
      TokenKind.turns 0 (kinds inside) = some (astrayAll .indent inside)

/-- A suite closes if no block end is astray in it. -/
def ClosesClean (nodeKind : NodeKind) (children : List Tree) : Prop :=
  astrayAll .dedent children = 0 → Closes nodeKind children

/-- Tokens of the kind that stand in no suite below the trees. -/
def loose (kind : TokenKind) (trees : List Tree) : Nat := direct kind trees + astrayAll kind trees

section Counts

variable (kind : TokenKind)

theorem astrayAll_append (trees others : List Tree) :
    astrayAll kind (trees ++ others) = astrayAll kind trees + astrayAll kind others := by
  induction trees with
  | nil => simp [astrayAll]
  | cons tree trees ih => simp [astrayAll, ih, Nat.add_assoc]

private theorem astrayAll_reverse (trees : List Tree) :
    astrayAll kind trees.reverse = astrayAll kind trees := by
  induction trees with
  | nil => rfl
  | cons tree trees ih =>
    rw [List.reverse_cons, astrayAll_append, ih]
    simp only [astrayAll]
    omega

theorem loose_append (trees others : List Tree) :
    loose kind (trees ++ others) = loose kind trees + loose kind others := by
  simp only [loose, direct_append, astrayAll_append]
  omega

private theorem loose_node {nodeKind : NodeKind} (hkind : nodeKind ≠ .suite) (parts others : List Tree) :
    loose kind (.node nodeKind parts.reverse :: others) = loose kind parts + loose kind others := by
  simp only [loose, direct_node, astrayAll, astray, if_neg hkind, direct_reverse, astrayAll_reverse]
  omega

private theorem loose_suite (parts others : List Tree) :
    loose kind (.node .suite parts.reverse :: others) = astrayAll kind parts + loose kind others := by
  simp only [loose, direct_node, astrayAll, astray, if_pos, astrayAll_reverse]
  omega

private theorem loose_leaf (token : Token) (others : List Tree) :
    loose kind (token.leaf :: others) = (if token.kind = kind then 1 else 0) + loose kind others := by
  have hnone : astray kind token.leaf = 0 := rfl
  simp only [loose, direct_leaf, astrayAll, hnone]
  omega

end Counts

theorem astrayAll_eq_zero {kind : TokenKind} {trees : List Tree} (h : ∀ tree ∈ trees, astray kind tree = 0) :
    astrayAll kind trees = 0 := by
  induction trees with
  | nil => rfl
  | cons tree trees ih =>
    obtain ⟨htree, htrees⟩ := List.forall_mem_cons.mp h
    rw [astrayAll, htree, ih htrees]

private theorem astray_of_sheltered {tree : Tree} (h : tree.Each Sheltered) : astray .dedent tree = 0 := by
  induction h with
  | token kind text => rfl
  | node hlaw _ ih =>
    rw [astray, astrayAll_eq_zero ih]
    split
    · rfl
    · exact hlaw ‹_›

private theorem closes_of_sheltered {tree : Tree} (hsheltered : tree.Each Sheltered)
    (h : tree.Each ClosesClean) :
    tree.Each Closes := by
  induction h with
  | token kind text => exact .token kind text
  | node hlaw _ ih =>
    cases hsheltered with
    | node _ hchildren =>
      have hnone := astrayAll_eq_zero fun tree hmem => astray_of_sheltered (hchildren tree hmem)
      exact .node (hlaw hnone) fun tree hmem => ih tree hmem (hchildren tree hmem)

end Tree

namespace Sketch

open QuantumScript.Syntax.Tree

/-- What reading does to the blocks: it loses no block end, and if it adds no loose one then the tokens
taken close no block that was open before and leave those open of the loose block begins added. -/
structure Keeps (sketch after : Sketch) (taken : List Token) : Prop where
  ends : loose .dedent sketch.parts ≤ loose .dedent after.parts
  begins : loose .dedent after.parts = loose .dedent sketch.parts →
    ∃ more, loose .indent after.parts = loose .indent sketch.parts + more ∧
      TokenKind.turns 0 (taken.map Token.kind) = some more

namespace Keeps

variable {sketch mid after : Sketch} {taken more : List Token}

theorem refl (h : after.parts = sketch.parts) : sketch.Keeps after [] :=
  ⟨Nat.le_of_eq (congrArg _ h.symm), fun _ => ⟨0, congrArg _ h, rfl⟩⟩

theorem trans (h : sketch.Keeps mid taken) (hmore : mid.Keeps after more) :
    sketch.Keeps after (taken ++ more) := by
  refine ⟨Nat.le_trans h.ends hmore.ends, fun hclean => ?_⟩
  have hfirst := h.ends
  have hsecond := hmore.ends
  obtain ⟨early, hearly, hturns⟩ := h.begins (by omega)
  obtain ⟨late, hlate, hrest⟩ := hmore.begins (by omega)
  refine ⟨early + late, by omega, ?_⟩
  rw [List.map_append, TokenKind.turns_append, hturns]
  have hboth := TokenKind.turns_add hrest early
  rwa [Nat.zero_add, Nat.add_comm] at hboth

theorem leaf (token : Token) (h : after.parts = token.leaf :: sketch.parts) :
    sketch.Keeps after [token] := by
  constructor
  · rw [h, loose_leaf]
    omega
  · rw [h, loose_leaf, loose_leaf]
    intro hclean
    by_cases hkind : token.kind = .indent
    · exact ⟨1, by rw [if_pos hkind]; omega, by rw [List.map_singleton, hkind]; rfl⟩
    · have hdedent : token.kind ≠ .dedent := by
        intro hkind
        rw [if_pos hkind] at hclean
        omega
      refine ⟨0, by rw [if_neg hkind]; omega, ?_⟩
      exact TokenKind.turns_cons_inline (by simp [TokenKind.edges, hkind, hdedent]) 0 []

theorem leaves (tokens : List Token)
    (h : after.parts = (tokens.map Token.leaf).reverse ++ sketch.parts) : sketch.Keeps after tokens := by
  induction tokens generalizing sketch with
  | nil => exact refl h
  | cons token tokens ih =>
    have hfirst : sketch.Keeps { sketch with parts := token.leaf :: sketch.parts } [token] := leaf token rfl
    refine hfirst.trans (ih ?_)
    simp [h]

theorem node {kind : NodeKind} (hkind : kind ≠ .suite)
    (h : Keeps { sketch with parts := [] } after taken) :
    sketch.Keeps { after with parts := .node kind after.parts.reverse :: sketch.parts } taken := by
  constructor
  · rw [loose_node _ hkind]
    exact Nat.le_add_left _ _
  · simp only [loose_node _ hkind]
    intro hclean
    have hnone : loose .dedent after.parts = 0 := by omega
    obtain ⟨more, hmore, hturns⟩ := h.begins hnone
    have hopened : loose .indent after.parts = 0 + more := hmore
    exact ⟨more, by omega, hturns⟩

theorem wrap {kind : NodeKind} (hkind : kind ≠ .suite) {rest : List Token} {part : Tree}
    {parts : List Tree} {problems : List Problem} (h : Keeps ⟨rest, [part], problems⟩ after taken) :
    Keeps ⟨rest, part :: parts, problems⟩
      { after with parts := .node kind after.parts.reverse :: parts } taken := by
  have hsplit (kind : TokenKind) : loose kind (part :: parts) = loose kind [part] + loose kind parts :=
    loose_append kind [part] parts
  have hends : loose .dedent [part] ≤ loose .dedent after.parts := h.ends
  constructor
  · rw [loose_node _ hkind, hsplit]
    omega
  · simp only [loose_node _ hkind, hsplit]
    intro hclean
    have hsame : loose .dedent after.parts = loose .dedent [part] := by omega
    obtain ⟨more, hmore, hturns⟩ := h.begins hsame
    have hopened : loose .indent after.parts = loose .indent [part] + more := hmore
    exact ⟨more, by omega, hturns⟩

end Keeps

end Sketch

namespace Sketch

/-- What reading takes, and what it does to the blocks. -/
def Passes (sketch after : Sketch) : Prop := ∃ taken, sketch.Takes after taken ∧ sketch.Keeps after taken

namespace Passes

variable {sketch mid after : Sketch}

theorem refl (sketch : Sketch) : sketch.Passes sketch := ⟨[], .refl sketch, .refl rfl⟩

theorem trans (h : sketch.Passes mid) (hmore : mid.Passes after) : sketch.Passes after := by
  obtain ⟨taken, htakes, hkeeps⟩ := h
  obtain ⟨more, hmore, hlater⟩ := hmore
  exact ⟨taken ++ more, htakes.trans hmore, hkeeps.trans hlater⟩

theorem book (sketch : Sketch) (problem : Problem) : sketch.Passes (sketch.book problem) :=
  ⟨[], .book sketch problem, .refl rfl⟩

theorem take (sketch : Sketch) : sketch.Passes sketch.take := by
  obtain ⟨rest, parts, problems⟩ := sketch
  cases rest with
  | nil => exact refl _
  | cons token rest => exact ⟨[token], .take rest token parts problems, .leaf token rfl⟩

theorem skip (sketch : Sketch) : sketch.Passes sketch.skip := ⟨_, .skip sketch, .leaves _ rfl⟩

theorem finishStatement (sketch : Sketch) (booked : Nat) :
    sketch.Passes (sketch.finishStatement booked) := by
  unfold Sketch.finishStatement
  split
  · exact refl sketch
  · split
    · exact (book sketch _).trans (skip _)
    · exact skip sketch

theorem node {kind : NodeKind} (hkind : kind ≠ .suite) (h : Passes { sketch with parts := [] } after) :
    sketch.Passes { after with parts := .node kind after.parts.reverse :: sketch.parts } := by
  obtain ⟨taken, htakes, hkeeps⟩ := h
  exact ⟨taken, htakes.node kind, hkeeps.node hkind⟩

theorem wrap {kind : NodeKind} (hkind : kind ≠ .suite) {rest : List Token} {part : Tree}
    {parts : List Tree} {problems : List Problem} (h : Passes ⟨rest, [part], problems⟩ after) :
    Passes ⟨rest, part :: parts, problems⟩
      { after with parts := .node kind after.parts.reverse :: parts } := by
  obtain ⟨taken, htakes, hkeeps⟩ := h
  exact ⟨taken, htakes.wrap kind, hkeeps.wrap hkind⟩

end Passes

end Sketch

namespace Sketch

/-- Parts are added that hold no block edge but below nodes, and none is changed that was there. -/
def Inlines (sketch after : Sketch) : Prop :=
  ∃ added, after.parts = added ++ sketch.parts ∧ ∀ kind ∈ TokenKind.edges, Tree.direct kind added = 0

namespace Inlines

variable {sketch mid after : Sketch}

theorem refl (h : after.parts = sketch.parts) : sketch.Inlines after := ⟨[], h, fun _ _ => rfl⟩

theorem trans (h : sketch.Inlines mid) (hmore : mid.Inlines after) : sketch.Inlines after := by
  obtain ⟨added, hadded, hnone⟩ := h
  obtain ⟨later, hlater, hnever⟩ := hmore
  refine ⟨later ++ added, by rw [hlater, hadded, List.append_assoc], fun kind hmem => ?_⟩
  rw [Tree.direct_append, hnone kind hmem, hnever kind hmem]

theorem take (h : sketch.current ∉ TokenKind.edges) : sketch.Inlines sketch.take := by
  obtain ⟨rest, parts, problems⟩ := sketch
  cases rest with
  | nil => exact refl rfl
  | cons token rest =>
    refine ⟨[token.leaf], rfl, fun kind hmem => ?_⟩
    have hne : token.kind ≠ kind := fun hkind => h (show token.kind ∈ _ from hkind ▸ hmem)
    simp [Tree.direct, Token.leaf, Tree.tokenKind?, hne]

theorem node (h : after.parts = .node kind children :: sketch.parts) : sketch.Inlines after :=
  ⟨[.node kind children], h, fun _ _ => rfl⟩

end Inlines

end Sketch

namespace Script

section Inlines

variable {Rule : Type} {grammar : Rule → Script Rule} {sketch after : Sketch} {answer : Bool}

/-- The script adds no block edge to the parts, and changes none that are there. The rules that do so are
given. -/
def inlines (inliners : Rule → Bool) : Script Rule → Bool
  | .bump kind => !TokenKind.edges.contains kind
  | .advance | .wrap _ _ => false
  | .call rule => inliners rule
  | .seq first second => inlines inliners first && inlines inliners second
  | .cond test yes no => inlines inliners test && inlines inliners yes && inlines inliners no
  | .loop body => inlines inliners body
  | _ => true

theorem Reads.inlines {inliners : Rule → Bool}
    (hrules : ∀ rule, inliners rule = true → (grammar rule).inlines inliners = true) {script : Script Rule}
    (h : Reads grammar script sketch answer after) (hinlines : script.inlines inliners = true) :
    sketch.Inlines after := by
  induction h with
  | answer | demand | report | ask => exact .refl rfl
  | bump hcurrent =>
    refine .take ?_
    rw [hcurrent]
    simpa [Script.inlines] using hinlines
  | advance | wrap => cases hinlines
  | call _ ih => exact ih (hrules _ hinlines)
  | seq _ _ ihfirst ihsecond =>
    rw [Script.inlines, Bool.and_eq_true] at hinlines
    exact (ihfirst hinlines.1).trans (ihsecond hinlines.2)
  | yes _ _ ihtest ihyes =>
    rw [Script.inlines, Bool.and_eq_true, Bool.and_eq_true] at hinlines
    exact (ihtest hinlines.1.1).trans (ihyes hinlines.1.2)
  | no _ _ ihtest ihno =>
    rw [Script.inlines, Bool.and_eq_true, Bool.and_eq_true] at hinlines
    exact (ihtest hinlines.1.1).trans (ihno hinlines.2)
  | node => exact .node rfl
  | statement => exact .node rfl
  | stop _ ih => exact ih hinlines
  | round _ _ _ ihbody ihloop => exact (ihbody hinlines).trans (ihloop hinlines)

end Inlines

deriving instance DecidableEq for Script

/-- A node that is a suite has the body given. -/
def framed {Rule : Type} [DecidableEq Rule] : Script Rule → Script Rule → Bool
  | .node (.always kind) body, suite =>
    (decide (kind ≠ .suite) || decide (body = suite)) && framed body suite
  | .node (.unlessComprehension kind) body, suite
  | .wrap kind body, suite | .statement kind body, suite => decide (kind ≠ .suite) && framed body suite
  | .node .definition body, suite | .loop body, suite => framed body suite
  | .seq first second, suite => framed first suite && framed second suite
  | .cond test yes no, suite => framed test suite && framed yes suite && framed no suite
  | _, _ => true

section Framed

variable {Rule : Type} [DecidableEq Rule] {suite body first second test yes no : Script Rule}

private theorem framed_seq (h : (Script.seq first second).framed suite = true) :
    first.framed suite = true ∧ second.framed suite = true :=
  Bool.and_eq_true_iff.mp h

private theorem framed_cond (h : (Script.cond test yes no).framed suite = true) :
    test.framed suite = true ∧ yes.framed suite = true ∧ no.framed suite = true := by
  obtain ⟨hparts, hno⟩ := Bool.and_eq_true_iff.mp h
  obtain ⟨htest, hyes⟩ := Bool.and_eq_true_iff.mp hparts
  exact ⟨htest, hyes, hno⟩

private theorem framed_wrap {kind : NodeKind} (h : (Script.wrap kind body).framed suite = true) :
    kind ≠ .suite ∧ body.framed suite = true := by
  obtain ⟨hkind, hbody⟩ := Bool.and_eq_true_iff.mp h
  exact ⟨of_decide_eq_true hkind, hbody⟩

private theorem framed_statement {kind : NodeKind} (h : (Script.statement kind body).framed suite = true) :
    kind ≠ .suite ∧ body.framed suite = true :=
  framed_wrap h

private theorem framed_node {label : Label} (h : (Script.node label body).framed suite = true)
    (children : List Tree) :
    body.framed suite = true ∧ (label.resolve children = .suite → body = suite) := by
  cases label with
  | always kind =>
    simp only [framed, Bool.and_eq_true, Bool.or_eq_true, decide_eq_true_eq] at h
    exact ⟨h.2, fun hkind => h.1.resolve_left (not_not_intro hkind)⟩
  | unlessComprehension kind =>
    simp only [framed, Bool.and_eq_true, decide_eq_true_eq] at h
    refine ⟨h.2, fun hkind => ?_⟩
    rw [Label.resolve] at hkind
    split at hkind
    · cases hkind
    · exact absurd hkind h.1
  | definition =>
    refine ⟨h, fun hkind => ?_⟩
    rw [Label.resolve] at hkind
    split at hkind
    · cases hkind
    · split at hkind <;> cases hkind

end Framed

end Script

namespace Rule

private theorem inlines_grammar (rule : Rule) (h : rule.inlines = true) :
    (grammar rule).inlines inlines = true := by
  cases rule <;> first | rfl | cases h

end Rule

namespace Production

/-- The lines of a block, up to a block end. -/
def blockLines : Production :=
  .loop <| .cond (.ask (.at [.dedent, .endOfInput])) (.answer false) <|
    .cond (next .newline) (.bump .newline) (.seq (.call .statement) (.answer true))

def suiteBody : Production :=
  .cond (eat .newline)
    (.cond (eat .indent) (.seq blockLines (eat .dedent)) (.report .missingBlock))
    (.cond (next .endOfInput) (.answer true) (.call .simpleLine))

private theorem framed_grammar (rule : Rule) : (grammar rule).framed suiteBody = true := by
  cases rule <;> decide

open Script

variable {sketch after : Sketch} {answer : Bool}

private theorem reads_ask {kinds : List TokenKind} (h : Reads grammar (.ask (.at kinds)) sketch answer after) :
    answer = kinds.contains sketch.current ∧ after = sketch := by
  cases h
  exact ⟨rfl, rfl⟩

private theorem reads_eat {kind : TokenKind} (h : Reads grammar (eat kind) sketch answer after) :
    answer = decide (sketch.current = kind) ∧ after = if sketch.current = kind then sketch.take else sketch := by
  unfold eat next at h
  cases h with
  | yes htest hyes =>
    obtain ⟨-, rfl⟩ := reads_ask htest
    cases hyes with
    | bump hcurrent => exact ⟨(decide_eq_true hcurrent).symm, (if_pos hcurrent).symm⟩
  | no htest hno =>
    obtain ⟨hnext, rfl⟩ := reads_ask htest
    cases hno
    have hother : after.current ≠ kind := by simpa using hnext
    exact ⟨(decide_eq_false hother).symm, (if_neg hother).symm⟩

private theorem reads_eat_yes {kind : TokenKind} (h : Reads grammar (eat kind) sketch true after) :
    sketch.current = kind ∧ after = sketch.take := by
  obtain ⟨hcurrent, rfl⟩ := reads_eat h
  have hkind := of_decide_eq_true hcurrent.symm
  exact ⟨hkind, if_pos hkind⟩

private theorem reads_eat_no {kind : TokenKind} (h : Reads grammar (eat kind) sketch false after) :
    after = sketch := by
  obtain ⟨hcurrent, rfl⟩ := reads_eat h
  exact if_neg (of_decide_eq_false hcurrent.symm)

private theorem reads_blockLines (h : Reads grammar blockLines sketch answer after) :
    after.current ∈ [.dedent, .endOfInput] := by
  generalize hscript : blockLines = script at h
  induction h with
  | stop hbody ih =>
    cases hscript
    cases hbody with
    | yes htest hyes =>
      obtain ⟨hends, rfl⟩ := reads_ask htest
      cases hyes
      exact List.contains_iff_mem.mp hends.symm
    | no htest hno =>
      cases hno with
      | yes _ hline => cases hline
      | no _ hstatement =>
        cases hstatement with
        | seq _ hanswer => cases hanswer
  | round _ _ _ _ ihloop =>
    cases hscript
    exact ihloop rfl
  | _ => cases hscript

end Production

namespace Sketch

/-- The tokens that are left close all blocks in the end. -/
def Closing (sketch : Sketch) : Prop :=
  (∀ token ∈ sketch.rest, token.kind ≠ .endOfInput) ∧
    ∃ depth, TokenKind.turns depth (sketch.rest.map Token.kind) = some 0

variable {sketch after : Sketch} {taken : List Token}

theorem Closing.later (h : sketch.Closing) (htakes : sketch.Takes after taken) : after.Closing := by
  obtain ⟨htokens, depth, hturns⟩ := h
  rw [htakes.rest] at htokens hturns
  rw [List.map_append, TokenKind.turns_append] at hturns
  obtain ⟨left, -, hrest⟩ := Option.bind_eq_some_iff.mp hturns
  exact ⟨fun token hmem => htokens token (List.mem_append_right _ hmem), left, hrest⟩

theorem Closing.take (h : sketch.Closing) : sketch.take.Closing := by
  obtain ⟨taken, htakes, -⟩ := Passes.take sketch
  exact h.later htakes

theorem Passes.closing (h : sketch.Passes after) (hclosing : sketch.Closing) : after.Closing := by
  obtain ⟨taken, htakes, -⟩ := h
  exact hclosing.later htakes

end Sketch

namespace Script

open Production

/-- What is read of all scripts where fewer tokens are left. -/
def PassesBelow (bound : Nat) : Prop :=
  ∀ {script : Production} {sketch after : Sketch} {answer : Bool}, Reads grammar script sketch answer after →
    sketch.rest.length < bound → script.framed suiteBody = true → sketch.Closing → sketch.Passes after

private theorem reads_block {stop opening : Token} {rest : List Token} {problems : List Problem}
    {mid after : Sketch} {ignored answer : Bool} (hopening : opening.kind = .indent)
    (hclosing : Sketch.Closing ⟨opening :: rest, [stop.leaf], problems⟩)
    (hpasses : Sketch.Passes ⟨rest, [opening.leaf, stop.leaf], problems⟩ mid)
    (hlines : Reads grammar blockLines ⟨rest, [opening.leaf, stop.leaf], problems⟩ ignored mid)
    (hend : Reads grammar (eat .dedent) mid answer after)
    (hclean : Tree.astrayAll .dedent after.parts = 0) :
    ∃ inside closing taken, closing.kind = .dedent ∧
      after.parts = closing.leaf :: (inside ++ [opening.leaf, stop.leaf]) ∧
      rest = taken ++ closing :: after.rest ∧
      Tree.kinds inside.reverse = taken.map Token.kind ∧
      TokenKind.turns 0 (taken.map Token.kind) = some (Tree.astrayAll .indent inside) := by
  obtain ⟨inside, hparts, hnone⟩ := hlines.inlines Rule.inlines_grammar rfl
  obtain ⟨taken, htakes, hkeeps⟩ := hpasses
  have hcount (kind : TokenKind) (hedge : kind ∈ TokenKind.edges) :
      Tree.loose kind mid.parts =
        Tree.astrayAll kind inside + Tree.loose kind [opening.leaf, stop.leaf] := by
    rw [hparts, Tree.loose_append, Tree.loose, hnone kind hedge, Nat.zero_add]
  have hinside : Tree.astrayAll .dedent inside = 0 := by
    have hmid : Tree.astrayAll .dedent mid.parts = 0 := by
      rw [(reads_eat hend).2] at hclean
      split at hclean
      · unfold Sketch.take at hclean
        split at hclean
        · exact hclean
        · exact (Nat.add_eq_zero_iff.mp hclean).2
      · exact hclean
    rw [hparts, Tree.astrayAll_append] at hmid
    omega
  -- No block end is loose in the lines, so they keep the blocks.
  obtain ⟨more, hmore, hturns⟩ := hkeeps.begins (by rw [hcount _ (by decide), hinside, Nat.zero_add])
  have hastray : Tree.astrayAll .indent inside = more := by
    rw [hcount _ (by decide)] at hmore
    dsimp only at hmore
    omega
  have hkinds : Tree.kinds inside.reverse = taken.map Token.kind := by
    have hleaves := htakes.leaves
    rw [hparts, List.reverse_append, Tree.leavesAll_append] at hleaves
    rw [Tree.kinds, List.append_cancel_left hleaves, List.map_map]
    rfl
  by_cases hcurrent : mid.current = .dedent
  · obtain rfl : after = mid.take := (reads_eat hend).2.trans (if_pos hcurrent)
    obtain ⟨_ | ⟨closing, later⟩, parts, booked⟩ := mid
    · cases hcurrent
    · exact ⟨inside, closing, taken, hcurrent, congrArg (closing.leaf :: ·) hparts, htakes.rest, hkinds,
        hastray ▸ hturns⟩
  · -- There is a block end for the block begin, so the lines do not go on up to the end of the input.
    obtain ⟨hsolid, depth, hlater⟩ := hclosing
    obtain ⟨later, parts, booked⟩ := mid
    have hrest : rest = taken ++ later := htakes.rest
    cases later with
    | nil =>
      rw [List.append_nil] at hrest
      rw [List.map_cons, hopening, TokenKind.turns_cons, hrest] at hlater
      have hopen := TokenKind.turns_add hturns (depth + 1)
      rw [Nat.zero_add] at hopen
      cases hopen.symm.trans hlater
    | cons token later =>
      have hends := reads_blockLines hlines
      simp only [List.mem_cons, List.not_mem_nil, or_false] at hends
      rcases hends with hend | hend
      · exact absurd hend hcurrent
      · exact absurd hend (hsolid token (by simp [hrest]))

/-- A suite has no block edge of its own, or it has a block begin after its line end. Then it goes on up to a
block end. -/
private theorem reads_suite {rest : List Token} {problems : List Problem} {after : Sketch} {answer : Bool}
    (hbelow : PassesBelow rest.length) (h : Reads grammar suiteBody ⟨rest, [], problems⟩ answer after)
    (hclosing : Sketch.Closing ⟨rest, [], problems⟩) :
    (∀ kind ∈ TokenKind.edges, Tree.direct kind after.parts = 0) ∨
      (Tree.astrayAll .dedent after.parts = 0 →
        ∃ stop opening inside closing taken, stop.kind = .newline ∧ opening.kind = .indent ∧
          closing.kind = .dedent ∧ after.parts = closing.leaf :: (inside ++ [opening.leaf, stop.leaf]) ∧
          rest = stop :: opening :: (taken ++ closing :: after.rest) ∧
          Tree.kinds inside.reverse = taken.map Token.kind ∧
          TokenKind.turns 0 (taken.map Token.kind) = some (Tree.astrayAll .indent inside)) := by
  have hinline {later : Sketch} (h : Sketch.Inlines ⟨rest, [], problems⟩ later) :
      ∀ kind ∈ TokenKind.edges, Tree.direct kind later.parts = 0 := by
    obtain ⟨added, hadded, hnone⟩ := h
    rw [hadded, List.append_nil]
    exact hnone
  cases h with
  | no hnewline hline =>
    obtain rfl := reads_eat_no hnewline
    exact .inl (hinline (hline.inlines Rule.inlines_grammar rfl))
  | yes hnewline hblock =>
    obtain ⟨hstop, rfl⟩ := reads_eat_yes hnewline
    obtain _ | ⟨stop, rest⟩ := rest
    · cases hstop
    cases hblock with
    | no hindent hreport =>
      obtain rfl := reads_eat_no hindent
      cases hreport
      refine .inl (hinline (Sketch.Inlines.take ?_))
      rw [hstop]
      decide
    | yes hindent hlines =>
      obtain ⟨hopening, rfl⟩ := reads_eat_yes hindent
      obtain _ | ⟨opening, rest⟩ := rest
      · cases hopening
      cases hlines with
      | seq hlines hend =>
        right
        intro hclean
        have hless : rest.length < (stop :: opening :: rest).length := Nat.lt_add_of_pos_right Nat.two_pos
        have hpasses := hbelow hlines hless (by decide) hclosing.take.take
        obtain ⟨inside, closing, taken, hkind, hparts, hrest, hkinds, hturns⟩ :=
          reads_block hopening hclosing.take hpasses hlines hend hclean
        exact ⟨stop, opening, inside, closing, taken, hstop, hopening, hkind, hparts, by rw [hrest], hkinds,
          hturns⟩

private theorem Passes.suite {sketch after : Sketch} {answer : Bool}
    (hbelow : PassesBelow sketch.rest.length)
    (h : Reads grammar suiteBody { sketch with parts := [] } answer after) (hclosing : sketch.Closing)
    (hpasses : Sketch.Passes { sketch with parts := [] } after) :
    sketch.Passes { after with parts := .node .suite after.parts.reverse :: sketch.parts } := by
  obtain ⟨taken, htakes, hkeeps⟩ := hpasses
  refine ⟨taken, htakes.node .suite, ?_, ?_⟩
  · rw [Tree.loose_suite]
    exact Nat.le_add_left _ _
  · simp only [Tree.loose_suite]
    intro hclean
    have hnone : Tree.astrayAll .dedent after.parts = 0 := by omega
    refine ⟨Tree.astrayAll .indent after.parts, Nat.add_comm _ _, ?_⟩
    rcases reads_suite hbelow h hclosing with hinline | hblock
    · obtain ⟨more, hmore, hturns⟩ := hkeeps.begins (by
        rw [Tree.loose, hinline _ (by decide), hnone]
        rfl)
      rw [Tree.loose, hinline _ (by decide)] at hmore
      have hopened : 0 + Tree.astrayAll .indent after.parts = 0 + more := hmore
      rw [hturns]
      exact congrArg some (by omega)
    · obtain ⟨stop, opening, inside, closing, lines, hstop, hopening, hkind, hparts, hrest, -, hturns⟩ :=
        hblock hnone
      have htaken : taken = stop :: opening :: (lines ++ [closing]) := by
        have hall : stop :: opening :: (lines ++ closing :: after.rest) = taken ++ after.rest :=
          hrest.symm.trans htakes.rest
        refine List.append_cancel_right (hall.symm.trans ?_)
        simp
      have hastray : Tree.astrayAll .indent after.parts = Tree.astrayAll .indent inside := by
        rw [hparts]
        simp only [Tree.astrayAll, Tree.astrayAll_append, Token.leaf, Tree.astray]
        omega
      have hopen := TokenKind.turns_add hturns 1
      rw [htaken, hastray, List.map_cons, List.map_cons, List.map_append, hstop, hopening]
      refine (TokenKind.turns_append 1 _ _).trans ?_
      rw [hopen, List.map_singleton, hkind]
      rfl

private theorem Reads.passes_succ {bound : Nat} (hbelow : PassesBelow bound) {script : Production}
    {sketch after : Sketch} {answer : Bool} (h : Reads grammar script sketch answer after)
    (hbound : sketch.rest.length ≤ bound) (hframed : script.framed suiteBody = true)
    (hclosing : sketch.Closing) : sketch.Passes after := by
  have hlater {sketch after : Sketch} (h : sketch.Passes after) (hbound : sketch.rest.length ≤ bound) :
      after.rest.length ≤ bound := by
    obtain ⟨taken, htakes, -⟩ := h
    have hlength := congrArg List.length htakes.rest
    rw [List.length_append] at hlength
    omega
  induction h with
  | answer | demand | ask => exact .refl _
  | report => exact .book _ _
  | bump | advance => exact .take _
  | call _ ih => exact ih hbound (framed_grammar _) hclosing
  | seq _ _ ihfirst ihsecond =>
    obtain ⟨hheld, hnext⟩ := framed_seq hframed
    have hfirst := ihfirst hbound hheld hclosing
    exact hfirst.trans (ihsecond (hlater hfirst hbound) hnext (hfirst.closing hclosing))
  | yes _ _ ihtest ihyes =>
    obtain ⟨hheld, hyes, -⟩ := framed_cond hframed
    have htest := ihtest hbound hheld hclosing
    exact htest.trans (ihyes (hlater htest hbound) hyes (htest.closing hclosing))
  | no _ _ ihtest ihno =>
    obtain ⟨hheld, -, hno⟩ := framed_cond hframed
    have htest := ihtest hbound hheld hclosing
    exact htest.trans (ihno (hlater htest hbound) hno (htest.closing hclosing))
  | @node label body sketch after _ hbody ih =>
    obtain ⟨hinner, hsuite⟩ := framed_node hframed after.parts.reverse
    have hpasses := ih hbound hinner hclosing
    by_cases hkind : label.resolve after.parts.reverse = .suite
    · rw [hkind]
      obtain rfl := hsuite hkind
      exact Passes.suite (fun h hless => hbelow h (Nat.lt_of_lt_of_le hless hbound)) hbody hclosing hpasses
    · exact hpasses.node hkind
  | wrap _ ih =>
    obtain ⟨hkind, hinner⟩ := framed_wrap hframed
    exact (ih hbound hinner hclosing).wrap hkind
  | @statement _ _ sketch mid _ _ _ hafter ih =>
    subst hafter
    obtain ⟨hkind, hinner⟩ := framed_statement hframed
    have hbody := (ih hbound hinner hclosing).trans (.finishStatement mid sketch.problems.length)
    refine hbody.node ?_
    split
    · decide
    · exact hkind
  | stop _ ih => exact ih hbound hframed hclosing
  | round _ _ _ ihbody ihloop =>
    have hbody := ihbody hbound hframed hclosing
    exact hbody.trans (ihloop (hlater hbody hbound) hframed (hbody.closing hclosing))

private theorem passesBelow (bound : Nat) : PassesBelow bound := by
  induction bound with
  | zero => exact fun _ hless => absurd hless (Nat.not_lt_zero _)
  | succ bound ih =>
    exact fun h hless hframed hclosing => h.passes_succ ih (Nat.le_of_lt_succ hless) hframed hclosing

theorem Reads.passes {script : Production} {sketch after : Sketch} {answer : Bool}
    (h : Reads grammar script sketch answer after) (hframed : script.framed suiteBody = true)
    (hclosing : sketch.Closing) : sketch.Passes after :=
  passesBelow _ h (Nat.lt_succ_self _) hframed hclosing

private theorem closes_suite {rest : List Token} {problems : List Problem} {after : Sketch} {answer : Bool}
    (h : Reads grammar suiteBody ⟨rest, [], problems⟩ answer after)
    (hclosing : Sketch.Closing ⟨rest, [], problems⟩) : Tree.ClosesClean .suite after.parts.reverse := by
  intro hclean _ hopened
  rw [Tree.direct_reverse] at hopened
  rw [Tree.astrayAll_reverse] at hclean
  rcases reads_suite (passesBelow _) h hclosing with hinline | hblock
  · exact absurd (hinline .indent (by decide)) (Nat.ne_of_gt hopened)
  · obtain ⟨stop, opening, inside, closing, lines, hstop, hopening, hkind, hparts, -, hkinds, hturns⟩ :=
      hblock hclean
    refine ⟨stop.text, opening.text, inside.reverse, closing.text, ?_, ?_⟩
    · rw [hparts]
      simp [Token.leaf, hstop, hopening, hkind]
    · rw [hkinds, hturns, Tree.astrayAll_reverse]

theorem Reads.closes {script : Production} {sketch after : Sketch} {answer : Bool}
    (h : Reads grammar script sketch answer after) (hframed : script.framed suiteBody = true)
    (hclosing : sketch.Closing) (hparts : ∀ tree ∈ sketch.parts, tree.Each Tree.ClosesClean) :
    ∀ tree ∈ after.parts, tree.Each Tree.ClosesClean := by
  induction h with
  | answer | demand | report | ask => exact hparts
  | bump | advance => exact Sketch.each_take hparts
  | call _ ih => exact ih (framed_grammar _) hclosing hparts
  | seq hfirst _ ihfirst ihsecond =>
    obtain ⟨hheld, hnext⟩ := framed_seq hframed
    exact ihsecond hnext ((hfirst.passes hheld hclosing).closing hclosing)
      (ihfirst hheld hclosing hparts)
  | yes htest _ ihtest ihyes =>
    obtain ⟨hheld, hyes, -⟩ := framed_cond hframed
    exact ihyes hyes ((htest.passes hheld hclosing).closing hclosing)
      (ihtest hheld hclosing hparts)
  | no htest _ ihtest ihno =>
    obtain ⟨hheld, -, hno⟩ := framed_cond hframed
    exact ihno hno ((htest.passes hheld hclosing).closing hclosing)
      (ihtest hheld hclosing hparts)
  | @node label body sketch after _ hbody ih =>
    obtain ⟨hinner, hsuite⟩ := framed_node hframed after.parts.reverse
    refine List.forall_mem_cons.mpr ⟨.node (fun hclean hkind => ?_) fun tree hmem => ?_, hparts⟩
    · obtain rfl := hsuite hkind
      exact closes_suite hbody hclosing hclean rfl
    · exact ih hinner hclosing nofun tree (List.mem_reverse.mp hmem)
  | wrap _ ih =>
    obtain ⟨hnot, hinner⟩ := framed_wrap hframed
    obtain ⟨hpart, hothers⟩ := List.forall_mem_cons.mp hparts
    refine List.forall_mem_cons.mpr ⟨.node (fun _ hkind => absurd hkind hnot) fun tree hmem => ?_, hothers⟩
    exact ih hinner hclosing (List.forall_mem_singleton.mpr hpart) tree (List.mem_reverse.mp hmem)
  | statement _ hafter ih =>
    subst hafter
    obtain ⟨hnot, hinner⟩ := framed_statement hframed
    refine List.forall_mem_cons.mpr ⟨.node (fun _ hkind => ?_) fun tree hmem => ?_, hparts⟩
    · split at hkind
      · cases hkind
      · exact absurd hkind hnot
    · exact Sketch.each_finishStatement _ (ih hinner hclosing nofun) tree (List.mem_reverse.mp hmem)
  | stop _ ih => exact ih hframed hclosing hparts
  | round hbody _ _ ihbody ihloop =>
    exact ihloop hframed ((hbody.passes hframed hclosing).closing hclosing) (ihbody hframed hclosing hparts)

end Script

/-- Whatever the source, a suite that has a block begin ends with a block end, and where it ends those blocks
are open that the block begins astray in it have opened. If there is none then its block end is the one that
belongs to its block begin. -/
theorem parse_suites (source : List Char) :
    (parse source).tree.Each fun kind children => Tree.Closes kind (Tree.bareAll children) := by
  obtain ⟨sketch, hread, hbare, -⟩ := parse_read source
  have hreads := Script.reads_of_read hread
  have hclosing : Sketch.Closing ⟨Token.significant (Token.ofText source), [], []⟩ := by
    refine ⟨fun token hmem => Token.kind_ne_end (List.mem_filter.mp hmem).1, 0, ?_⟩
    rw [Token.turns_significant, Token.turns_ofText]
  have hsheltered := reads_sheltered hreads
  have hcloses := hreads.closes (by decide) hclosing nofun
  apply Tree.each_bare
  rw [hbare]
  refine .node nofun fun tree hmem => ?_
  have hpart : tree ∈ sketch.parts := List.mem_reverse.mp hmem
  exact Tree.closes_of_sheltered (hsheltered tree hpart) (hcloses tree hpart)

end Syntax

end QuantumScript
