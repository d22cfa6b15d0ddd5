import Mathlib.Data.List.Induction
import QuantumScript.Proofs.Parsing.Conforming
/-!
# Ends of statements

In a source without errors each logical line is ended by the statements that stand on it. A compound
statement stands at the start of a line, and nothing follows it on its last line. Whether a script leaves
a line at its end is told from the script, given what the rules that it calls leave behind.
-/

namespace QuantumScript

namespace Syntax

/-- The token stands on a line or ends it. -/
def TokenKind.bears (kind : TokenKind) : Bool :=
  !(kind.isTrivia || kind = .indent || kind = .dedent)

/-- The leaves that stand on a line or end it. -/
def bearing (leaves : List (TokenKind × List Char)) : List (TokenKind × List Char) :=
  leaves.filter fun leaf => leaf.1.bears

/-- What comes after the leaves starts a line: the last of those that bear is the end of a line, or there is
none. -/
def LineEnded (leaves : List (TokenKind × List Char)) : Prop :=
  ∀ leaf ∈ (bearing leaves).getLast?, leaf.1 = .newline

section Leaves

variable {leaves others : List (TokenKind × List Char)}

theorem bearing_append (leaves others : List (TokenKind × List Char)) :
    bearing (leaves ++ others) = bearing leaves ++ bearing others := List.filter_append _ _

theorem LineEnded.congr (h : LineEnded leaves) (hsame : bearing others = bearing leaves) : LineEnded others := by
  rw [LineEnded, hsame]
  exact h

private theorem lineEnded_newline (leaves : List (TokenKind × List Char)) (text : List Char) :
    LineEnded (leaves ++ [(.newline, text)]) := by
  intro leaf hleaf
  have hlast : bearing (leaves ++ [(.newline, text)]) = bearing leaves ++ [(.newline, text)] := bearing_append _ _
  rw [hlast, List.getLast?_concat] at hleaf
  obtain rfl := Option.some.inj hleaf
  rfl

theorem LineEnded.skip (h : LineEnded leaves) (hbears : bearing others = []) : LineEnded (leaves ++ others) :=
  h.congr (by rw [bearing_append, hbears, List.append_nil])

/-- The leaves are split at the end of the line. -/
theorem LineEnded.split (h : LineEnded leaves) (hbears : bearing leaves ≠ []) :
    ∃ line text edges, leaves = line ++ (.newline, text) :: edges ∧ bearing edges = [] := by
  induction leaves using List.reverseRecOn with
  | nil => exact absurd rfl hbears
  | append_singleton front leaf ih =>
    obtain ⟨kind, text⟩ := leaf
    cases hkind : kind.bears with
    | true =>
      have hown : bearing [(kind, text)] = [(kind, text)] := List.filter_cons_of_pos hkind
      have hlast : kind = .newline := h (kind, text) (by
        rw [bearing_append, hown, List.getLast?_concat]
        exact Option.mem_some_self _)
      subst hlast
      exact ⟨front, text, [], rfl, rfl⟩
    | false =>
      have hnone : bearing [(kind, text)] = [] := List.filter_cons_of_neg (by simpa using hkind)
      have hsame : bearing (front ++ [(kind, text)]) = bearing front := by
        rw [bearing_append, hnone, List.append_nil]
      obtain ⟨line, own, edges, hfront, hedges⟩ := ih (h.congr hsame.symm) (hsame ▸ hbears)
      refine ⟨line, own, edges ++ [(kind, text)], ?_, ?_⟩
      · rw [hfront, List.append_assoc, List.cons_append]
      · rw [bearing_append, hedges, hnone, List.append_nil]

end Leaves

namespace Tree

mutual

private theorem bearing_bare (tree : Tree) : bearing tree.bare.leaves = bearing tree.leaves := by
  match tree with
  | .token kind text => rfl
  | .node kind children => exact bearing_bareAll children

private theorem bearing_bareAll (trees : List Tree) :
    bearing (leavesAll (bareAll trees)) = bearing (leavesAll trees) := by
  match trees with
  | [] => rfl
  | tree :: trees =>
    have hrest := bearing_bareAll trees
    rw [bareAll, leavesAll, bearing_append]
    split
    · rename_i htrivia
      cases tree with
      | node kind children => cases htrivia
      | token kind text =>
        have hkind : kind.isTrivia = true := htrivia
        have hnone : bearing (leaves (.token kind text)) = [] :=
          List.filter_cons_of_neg (by simp [TokenKind.bears, hkind])
        rw [hrest, hnone, List.nil_append]
    · rw [leavesAll, bearing_append, bearing_bare tree, hrest]

end

/-- A compound statement. -/
def isCompound (tree : Tree) : Bool := tree.nodeKind?.any NodeKind.isCompound

/-- Every compound statement among the trees begins a line, and nothing follows it on its last one. -/
def Separated (trees : List Tree) : Prop :=
  ∀ front tree back, trees = front ++ tree :: back → tree.isCompound = true →
    LineEnded (leavesAll front) ∧ (LineEnded (leavesAll (front ++ [tree])) ∨ bearing (leavesAll back) = [])

theorem Separated.append {trees more : List Tree} (h : Separated trees) (hended : LineEnded (leavesAll trees))
    (hmore : (∃ tree, more = [tree]) ∨ ∀ tree ∈ more, tree.isCompound = false) : Separated (trees ++ more) := by
  intro front tree back hsplit hcompound
  rcases List.append_eq_append_iff.mp hsplit with ⟨between, hfront, hback⟩ | ⟨between, htrees, hback⟩
  · -- The compound statement is among the trees that have come.
    rcases hmore with ⟨own, rfl⟩ | hmore
    · cases between with
      | nil =>
        obtain ⟨rfl, rfl⟩ := List.cons.inj hback
        rw [hfront, List.append_nil]
        exact ⟨hended, .inr rfl⟩
      | cons _ between => cases between <;> cases hback
    · have hmem : tree ∈ more := hback ▸ List.mem_append_right _ List.mem_cons_self
      rw [hmore tree hmem] at hcompound
      cases hcompound
  · cases between with
    | nil =>
      rw [List.append_nil] at htrees
      subst htrees
      rcases hmore with ⟨own, rfl⟩ | hmore
      · obtain ⟨rfl, rfl⟩ := List.cons.inj hback
        exact ⟨hended, .inr rfl⟩
      · have hmem : tree ∈ more := by
          have hown : tree :: back = more := hback
          exact hown ▸ List.mem_cons_self
        rw [hmore tree hmem] at hcompound
        cases hcompound
    | cons own between =>
      obtain ⟨rfl, rfl⟩ := List.cons.inj hback
      obtain ⟨hfront, hlast⟩ := h front tree between htrees hcompound
      refine ⟨hfront, .inl ?_⟩
      rcases hlast with hlast | hnone
      · exact hlast
      · refine hended.congr ?_
        have hsplit : trees = (front ++ [tree]) ++ between := by rw [htrees, List.append_assoc]; rfl
        rw [hsplit, leavesAll_append _ between, bearing_append, hnone, List.append_nil]

private theorem Separated.of_bareAll {trees : List Tree} (h : Separated (bareAll trees)) : Separated trees := by
  intro front tree back hsplit hcompound
  have htree (rest : List Tree) : bareAll (tree :: rest) = tree.bare :: bareAll rest := by
    rw [bareAll, if_neg]
    intro htrivia
    cases tree with
    | token kind text => cases hcompound
    | node kind children => cases htrivia
  have hbare : bareAll trees = bareAll front ++ tree.bare :: bareAll back := by
    rw [hsplit, bareAll_append, htree]
  have hown : bareAll front ++ [tree.bare] = bareAll (front ++ [tree]) := by
    rw [bareAll_append, htree, bareAll]
  obtain ⟨hfront, hlast⟩ := h (bareAll front) tree.bare (bareAll back) hbare
    (by rw [isCompound, nodeKind?_bare]; exact hcompound)
  refine ⟨hfront.congr (bearing_bareAll front).symm, ?_⟩
  rcases hlast with hlast | hnone
  · rw [hown] at hlast
    exact .inl (hlast.congr (bearing_bareAll _).symm)
  · rw [bearing_bareAll] at hnone
    exact .inr hnone

end Tree

namespace Script

variable {Rule : Type} {grammar : Rule → Script Rule}

/-- The script books a problem. -/
def reports : Script Rule → Bool
  | .report _ => true
  | _ => false

/-- Whether a line starts after the script, if it is read without an error and answers in this way, or else
the tokens have come to their end. The flag tells that it is so before. Calls are told by a table. -/
def ends (rules : Rule → Bool → Bool) : Script Rule → (flag way : Bool) → Bool
  | .answer value, flag, way => flag || value != way
  | .bump kind, flag, _ => kind = .newline || (flag && (kind = .indent || kind = .dedent))
  | .demand _, flag, _ => flag
  | .advance, _, _ => false
  | .report _, _, _ => true
  | .ask (.at kinds), flag, way => flag || (way && kinds.all fun kind => kind = .endOfInput)
  | .ask (.atPair _ _), flag, _ => flag
  | .call rule, flag, _ => rules rule flag
  | .seq first second, flag, way =>
    reports first || ends rules second (ends rules first flag true && ends rules first flag false) way
  | .cond test yes no, flag, way =>
    ends rules yes (ends rules test flag true) way && ends rules no (ends rules test flag false) way
  | .node _ body, flag, _ | .wrap _ body, flag, _ | .statement _ body, flag, _ =>
    ends rules body flag true && ends rules body flag false
  | .loop body, flag, _ => ends rules body (flag && ends rules body flag true) false

/-- What the table promises, the rules keep. -/
def Ends (grammar : Rule → Script Rule) (rules : Rule → Bool → Bool) : Prop :=
  ∀ rule flag way, rules rule flag = true → ends rules (grammar rule) flag way = true

/-- Where these of the tokens are left, a line starts or the tokens have come to their end. -/
def Starts (tokens rest : List Token) : Prop :=
  ∃ taken, tokens = taken ++ rest ∧ (rest = [] ∨ LineEnded (taken.map Token.entry))

section Starts

variable {tokens rest : List Token} {token : Token}

private theorem starts_newline (hrest : token :: rest <:+ tokens) (hkind : token.kind = .newline) :
    Starts tokens rest := by
  obtain ⟨taken, htaken⟩ := hrest
  refine ⟨taken ++ [token], by rw [← htaken, List.append_assoc]; rfl, .inr ?_⟩
  rw [List.map_append, List.map_singleton, Token.entry, hkind]
  exact lineEnded_newline _ token.text

theorem Starts.edge (h : Starts tokens (token :: rest)) (hkind : token.kind.bears = false) :
    Starts tokens rest := by
  obtain ⟨taken, htaken, hnil | hended⟩ := h
  · cases hnil
  · refine ⟨taken ++ [token], by rw [htaken, List.append_assoc]; rfl, .inr ?_⟩
    rw [List.map_append]
    exact hended.skip (List.filter_cons_of_neg (by simpa [Token.entry] using hkind))

end Starts

theorem Reads.ends {rules : Rule → Bool → Bool} (hrules : Ends grammar rules) {script : Script Rule}
    {sketch after : Sketch} {way : Bool} (h : Reads grammar script sketch way after) {tokens : List Token}
    (hend : ∀ token ∈ tokens, token.kind ≠ .endOfInput)
    (hrest : sketch.rest <:+ tokens) (flag : Bool) (hflag : flag = true → Starts tokens sketch.rest)
    (hends : script.ends rules flag way = true) (hclean : after.problems.length = sketch.problems.length) :
    Starts tokens after.rest := by
  -- Two parts, the first of which is told to lead to the second.
  have hthen {first second : Script Rule} {sketch mid after : Sketch} {early way : Bool}
      (hfirst : Reads grammar first sketch early mid) (hsecond : Reads grammar second mid way after)
      (hclean : after.problems.length = sketch.problems.length) (hrest : sketch.rest <:+ tokens) :
      mid.rest <:+ tokens ∧ mid.problems.length = sketch.problems.length ∧
        after.problems.length = mid.problems.length := by
    obtain ⟨taken, htakes⟩ := hfirst.takes
    obtain ⟨more, hmore⟩ := hsecond.takes
    refine ⟨?_, htakes.problems_split hmore hclean⟩
    exact List.IsSuffix.trans ⟨taken, htakes.rest.symm⟩ hrest
  have hboth {body : Script Rule} {flag : Bool} (way : Bool)
      (hends : (body.ends rules flag true && body.ends rules flag false) = true) :
      body.ends rules flag way = true := by
    rw [Bool.and_eq_true] at hends
    cases way with
    | true => exact hends.1
    | false => exact hends.2
  induction h generalizing flag with
  | answer value sketch => exact hflag (by simpa [Script.ends] using hends)
  | demand => exact hflag hends
  | ask question sketch =>
    cases question with
    | atPair kinds second => exact hflag hends
    | «at» kinds =>
      rw [Script.ends, Bool.or_eq_true, Bool.and_eq_true] at hends
      rcases hends with hset | ⟨hholds, hall⟩
      · exact hflag hset
      · have hmem : sketch.current ∈ kinds := by simpa [Sketch.holds] using hholds
        have hcurrent : sketch.current = .endOfInput := by simpa using List.all_eq_true.mp hall _ hmem
        obtain ⟨taken, htaken⟩ := hrest
        refine ⟨taken, htaken.symm, .inl ?_⟩
        obtain ⟨rest, parts, problems⟩ := sketch
        cases rest with
        | nil => rfl
        | cons token rest => exact absurd hcurrent (hend token (htaken ▸ by simp))
  | @bump kind sketch hcurrent =>
    obtain ⟨rest, parts, problems⟩ := sketch
    rw [Script.ends, Bool.or_eq_true, Bool.and_eq_true, Bool.or_eq_true, decide_eq_true_eq,
      decide_eq_true_eq, decide_eq_true_eq] at hends
    cases rest with
    | nil =>
      obtain rfl : .endOfInput = kind := hcurrent
      simp at hends
    | cons token rest =>
      obtain rfl : token.kind = kind := hcurrent
      rcases hends with hkind | ⟨hset, hkind⟩
      · exact starts_newline hrest hkind
      · refine (hflag hset).edge ?_
        rcases hkind with hkind | hkind <;> simp [TokenKind.bears, hkind]
  | advance => cases hends
  | report problem sketch => exact absurd hclean (Nat.succ_ne_self _)
  | call _ ih => exact ih hrest flag hflag (hrules _ _ _ hends) hclean
  | @seq first second sketch mid after early way hfirst hsecond ihfirst ihsecond =>
    obtain ⟨hmid, hearly, hlate⟩ := hthen hfirst hsecond hclean hrest
    rw [Script.ends, Bool.or_eq_true] at hends
    rcases hends with hreports | hends
    · cases first <;> cases hreports
      cases hfirst
      exact absurd hearly (Nat.succ_ne_self _)
    · exact ihsecond hmid _ (fun hset => ihfirst hrest flag hflag (hboth _ hset) hearly) hends hlate
  | yes htest hyes ihtest ihyes =>
    obtain ⟨hmid, hearly, hlate⟩ := hthen htest hyes hclean hrest
    rw [Script.ends, Bool.and_eq_true] at hends
    exact ihyes hmid _ (fun hset => ihtest hrest flag hflag hset hearly) hends.1 hlate
  | no htest hno ihtest ihno =>
    obtain ⟨hmid, hearly, hlate⟩ := hthen htest hno hclean hrest
    rw [Script.ends, Bool.and_eq_true] at hends
    exact ihno hmid _ (fun hset => ihtest hrest flag hflag hset hearly) hends.2 hlate
  | node hbody ih => exact ih hrest flag hflag (hboth _ hends) hclean
  | wrap hbody ih => exact ih hrest flag hflag (hboth _ hends) hclean
  | @statement kind body sketch mid after early hbody hafter ih =>
    subst hafter
    obtain ⟨more, hmore, hsame⟩ := Sketch.Takes.finishStatement mid sketch.problems.length
    have hdone : mid.finishStatement sketch.problems.length = mid := hsame hclean
    rw [hdone] at hclean ⊢
    exact ih hrest flag hflag (hboth _ hends) hclean
  | stop hbody ih =>
    refine ih hrest _ (fun hset => ?_) hends hclean
    rw [Bool.and_eq_true] at hset
    exact hflag hset.1
  | @round body sketch mid after way hbody hless hloop ihbody ihloop =>
    obtain ⟨hmid, hearly, hlate⟩ := hthen hbody hloop hclean hrest
    -- What each round keeps is kept by the next rounds too.
    generalize hheld : (flag && body.ends rules flag true) = held
    have hkept : held = true → flag = true ∧ body.ends rules flag true = true := by
      intro hset
      rwa [← hheld, Bool.and_eq_true] at hset
    have hagain : (held && body.ends rules held true) = held := by
      cases held with
      | false => rfl
      | true =>
        obtain ⟨rfl, hround⟩ := hkept rfl
        rw [hround, Bool.and_self]
    refine ihloop hmid held (fun hset => ihbody hrest flag hflag (hkept hset).2 hearly) ?_ hlate
    rw [Script.ends, hheld] at hends
    rw [Script.ends, hagain]
    exact hends

/-- The script adds no compound statement to the parts. Calls are told by a table. -/
def plain (rules : Rule → Bool) : Script Rule → Bool
  | .answer _ | .bump _ | .demand _ | .advance | .report _ | .ask _ => true
  | .call rule => rules rule
  | .seq first second => plain rules first && plain rules second
  | .cond test yes no => plain rules test && plain rules yes && plain rules no
  | .node (.always kind) _ | .statement kind _ => !kind.isCompound
  | .node _ _ | .wrap _ _ => false
  | .loop body => plain rules body

/-- The parts that are added are no compound statements. -/
def AddsPlain (sketch after : Sketch) : Prop :=
  ∃ added, after.parts = added ++ sketch.parts ∧ ∀ tree ∈ added, tree.isCompound = false

theorem AddsPlain.trans {sketch mid after : Sketch} (h : AddsPlain sketch mid) (hmore : AddsPlain mid after) :
    AddsPlain sketch after := by
  obtain ⟨added, hadded, hplain⟩ := h
  obtain ⟨more, hmore, hplainly⟩ := hmore
  exact ⟨more ++ added, by rw [hmore, hadded, List.append_assoc],
    List.forall_mem_append.mpr ⟨hplainly, hplain⟩⟩

private theorem Reads.addsPlain {rules : Rule → Bool}
    (hrules : ∀ rule, rules rule = true → plain rules (grammar rule) = true) {script : Script Rule}
    {sketch after : Sketch} {way : Bool} (h : Reads grammar script sketch way after)
    (hplain : script.plain rules = true) : AddsPlain sketch after := by
  have htake (sketch : Sketch) : AddsPlain sketch sketch.take := by
    unfold Sketch.take
    split
    · exact ⟨[], rfl, nofun⟩
    · exact ⟨[_], rfl, List.forall_mem_singleton.mpr rfl⟩
  induction h with
  | answer | demand | report | ask => exact ⟨[], rfl, nofun⟩
  | bump | advance => exact htake _
  | call _ ih => exact ih (hrules _ hplain)
  | seq _ _ ihfirst ihsecond =>
    rw [plain, Bool.and_eq_true] at hplain
    exact (ihfirst hplain.1).trans (ihsecond hplain.2)
  | yes _ _ ihtest ihyes =>
    rw [plain, Bool.and_eq_true, Bool.and_eq_true] at hplain
    exact (ihtest hplain.1.1).trans (ihyes hplain.1.2)
  | no _ _ ihtest ihno =>
    rw [plain, Bool.and_eq_true, Bool.and_eq_true] at hplain
    exact (ihtest hplain.1.1).trans (ihno hplain.2)
  | @node label body sketch after ignored hbody =>
    cases label with
    | always kind =>
      rw [plain, Bool.not_eq_true'] at hplain
      exact ⟨[_], rfl, List.forall_mem_singleton.mpr hplain⟩
    | _ => cases hplain
  | wrap => cases hplain
  | statement =>
    rw [plain, Bool.not_eq_true'] at hplain
    refine ⟨[_], rfl, List.forall_mem_singleton.mpr ?_⟩
    split
    · rfl
    · exact hplain
  | stop _ ih => exact ih hplain
  | round _ _ _ ihbody ihloop => exact (ihbody hplain).trans (ihloop hplain)

theorem Reads.asked {question : Lookahead} {sketch after : Sketch} {way : Bool}
    (h : Reads grammar (.ask question) sketch way after) : sketch.holds question = way ∧ sketch = after := by
  cases h
  exact ⟨rfl, rfl⟩

theorem Reads.branch {question : Lookahead} {yes no : Script Rule} {sketch after : Sketch} {way : Bool}
    (h : Reads grammar (.cond (.ask question) yes no) sketch way after) :
    (sketch.holds question = true ∧ Reads grammar yes sketch way after) ∨
      (sketch.holds question = false ∧ Reads grammar no sketch way after) := by
  cases h with
  | yes htest hyes =>
    obtain ⟨hholds, rfl⟩ := htest.asked
    exact .inl ⟨hholds, hyes⟩
  | no htest hno =>
    obtain ⟨hholds, rfl⟩ := htest.asked
    exact .inr ⟨hholds, hno⟩

theorem Reads.rounds {body : Script Rule} {sketch after : Sketch} {way : Bool} {P : Sketch → Prop}
    (h : Reads grammar (.loop body) sketch way after)
    (hround : ∀ {sketch mid : Sketch}, P sketch → Reads grammar body sketch true mid → P mid)
    (hstart : P sketch) : ∃ last, P last ∧ Reads grammar body last false after := by
  generalize hscript : Script.loop body = script at h
  induction h with
  | stop hbody =>
    cases hscript
    exact ⟨_, hstart, hbody⟩
  | round hbody _ _ _ ih =>
    cases hscript
    exact ih (hround hstart hbody) rfl
  | _ => cases hscript

end Script

namespace Rule

/-- Statements leave a line at its end, and so does a block. A missing `else` changes nothing. -/
def ends : Rule → (flag : Bool) → Bool
  | .statement, _ | .simpleLine, _ | .function, _ | .classDefinition, _ | .decorated, _ | .ifStatement, _
  | .whileStatement, _ | .forStatement, _ | .withStatement, _ | .tryStatement, _ | .suite, _ => true
  | .elseClause, flag => flag
  | _, _ => false

private theorem ends_grammar : Script.Ends grammar ends := by
  intro rule
  cases rule <;> decide

/-- A line of simple statements holds no compound one. -/
def plain : Rule → Bool
  | .simpleLine | .simpleStatement => true
  | _ => false

private theorem plain_grammar (rule : Rule) (h : plain rule = true) :
    Script.plain plain (grammar rule) = true := by
  cases rule <;> first | decide | cases h

end Rule

open Script

/-- A single part is added to the row, or parts that are no compound statements. -/
def Adds (sketch after : Sketch) : Prop :=
  ∃ added, after.parts = added ++ sketch.parts ∧
    ((∃ tree, added = [tree]) ∨ ∀ tree ∈ added, tree.isCompound = false)

private theorem adds_statement {sketch after : Sketch} {way : Bool}
    (h : Reads grammar (.call .statement) sketch way after) : Adds sketch after := by
  have hnode {label : Label} {body : Production} (h : Reads grammar (.node label body) sketch way after) :
      Adds sketch after := by
    cases h with
    | node hbody => exact ⟨[_], rfl, .inl ⟨_, rfl⟩⟩
  have hrule {rule : Rule} {kinds : List TokenKind} {label : Label} {body : Production}
      (hgrammar : grammar rule = .seq (.demand kinds) (.node label body))
      (h : Reads grammar (.call rule) sketch way after) : Adds sketch after := by
    cases h with
    | call h =>
      rw [hgrammar] at h
      cases h with
      | seq hfirst hsecond =>
        cases hfirst
        exact hnode hsecond
  cases h with
  | call h =>
    -- Each kind of compound statement has a rule of its own; what is left is an error or a simple line.
    iterate 8
      rcases h.branch with ⟨_, h⟩ | ⟨_, h⟩
      · exact hrule rfl h
    rcases h.branch with ⟨_, h⟩ | ⟨_, h⟩
    · exact hnode h
    · obtain ⟨added, hadded, hplain⟩ := h.addsPlain Rule.plain_grammar rfl
      exact ⟨added, hadded, .inr hplain⟩

/-- The parse is between two statements of a script: compound statements are separated so far, and a line
starts. -/
structure Between (tokens : List Token) (sketch : Sketch) : Prop where
  leaves : tokens.map Token.entry = Tree.leavesAll sketch.parts.reverse ++ sketch.rest.map Token.entry
  separated : Tree.Separated sketch.parts.reverse
  starts : Starts tokens sketch.rest

namespace Between

variable {tokens : List Token} {sketch mid : Sketch}

theorem rest (h : Between tokens sketch) : sketch.rest <:+ tokens := by
  obtain ⟨taken, htaken, _⟩ := h.starts
  exact ⟨taken, htaken.symm⟩

private theorem lineEnded (h : Between tokens sketch) (hrest : sketch.rest ≠ []) :
    LineEnded (Tree.leavesAll sketch.parts.reverse) := by
  obtain ⟨taken, htaken, hnil | hended⟩ := h.starts
  · exact absurd hnil hrest
  · have hleaves := h.leaves
    rw [htaken, List.map_append] at hleaves
    rwa [← List.append_cancel_right hleaves]

theorem add (h : Between tokens sketch) (hrest : sketch.rest ≠ []) {taken : List Token}
    (htakes : sketch.Takes mid taken) (hadds : Adds sketch mid) (hstarts : Starts tokens mid.rest) :
    Between tokens mid := by
  obtain ⟨added, hparts, hadded⟩ := hadds
  refine ⟨?_, ?_, hstarts⟩
  · rw [h.leaves, htakes.rest, htakes.leaves, List.map_append, List.append_assoc]
  · rw [hparts, List.reverse_append]
    refine h.separated.append (h.lineEnded hrest) ?_
    rcases hadded with ⟨tree, rfl⟩ | hplain
    · exact .inl ⟨tree, rfl⟩
    · exact .inr fun tree hmem => hplain tree (List.mem_reverse.mp hmem)

theorem round (h : Between tokens sketch) (hend : ∀ token ∈ tokens, token.kind ≠ .endOfInput)
    (hround : Reads grammar (.cond (Production.next .endOfInput) (.answer false)
      (.cond (.ask (.at [.dedent, .newline])) .advance (.seq (.call .statement) (.answer true)))) sketch true mid)
    (hclean : mid.problems.length = sketch.problems.length) : Between tokens mid := by
  rcases hround.branch with ⟨_, hround⟩ | ⟨hmore, hround⟩
  · cases hround
  obtain ⟨taken, htakes⟩ := hround.takes
  have hrest : sketch.rest ≠ [] := by
    intro hnil
    have hcurrent : sketch.current = .endOfInput := by rw [Sketch.current, hnil]
    simp [Sketch.holds, hcurrent] at hmore
  rcases hround.branch with ⟨hkind, hround⟩ | ⟨_, hround⟩
  · -- The end of a line or of a block that was left over.
    cases hround
    obtain ⟨rest, parts, problems⟩ := sketch
    cases rest with
    | nil => exact absurd rfl hrest
    | cons token rest =>
      refine h.add hrest htakes ⟨[token.leaf], rfl, .inl ⟨_, rfl⟩⟩ ?_
      have hkind : token.kind = .dedent ∨ token.kind = .newline := by
        simpa [Sketch.holds, Sketch.current] using hkind
      rcases hkind with hkind | hkind
      · exact h.starts.edge (by simp [TokenKind.bears, hkind])
      · exact starts_newline h.rest hkind
  · cases hround with
    | seq hstatement hanswer =>
      cases hanswer
      exact h.add hrest htakes (adds_statement hstatement)
        (hstatement.ends Rule.ends_grammar hend h.rest false (absurd · Bool.false_ne_true) rfl hclean)

end Between

/-- Compound statements of a source without errors stand on lines of their own. -/
theorem parse_separated {source : List Char} (h : (parse source).errors = []) :
    ∃ children, (parse source).tree = .node .file children ∧ Tree.Separated children := by
  obtain ⟨sketch, hread, hbare, hproblems⟩ := parse_read source
  have hclean : sketch.problems.length = 0 := by
    rw [← hproblems, problems_of_errors_nil h]
    rfl
  have hend : ∀ token ∈ Token.significant (Token.ofText source), token.kind ≠ .endOfInput :=
    fun token hmem => Token.kind_ne_end (List.mem_filter.mp hmem).1
  have hstart : Between (Token.significant (Token.ofText source))
      ⟨Token.significant (Token.ofText source), [], []⟩ := by
    refine ⟨rfl, fun front tree back hsplit _ => ?_, [], rfl, .inr nofun⟩
    cases front <;> cases hsplit
  obtain ⟨last, hlast, hstop⟩ := Reads.rounds
    (P := fun sketch => sketch.problems.length = 0 → Between (Token.significant (Token.ofText source)) sketch)
    (reads_of_read hread)
    (fun {sketch mid} hbetween hround hmid => by
      obtain ⟨taken, htakes⟩ := hround.takes
      have hsketch : sketch.problems.length = 0 := Nat.le_zero.mp (hmid ▸ htakes.length_problems)
      exact (hbetween hsketch).round hend hround (hmid.trans hsketch.symm))
    (fun _ => hstart)
  obtain rfl : last = sketch := by
    rcases hstop.branch with ⟨_, hstop⟩ | ⟨_, hstop⟩
    · cases hstop
      rfl
    · rcases hstop.branch with ⟨_, hstop⟩ | ⟨_, hstop⟩
      · cases hstop
      · cases hstop with
        | seq _ hanswer => cases hanswer
  refine ⟨_, rfl, Tree.Separated.of_bareAll ?_⟩
  obtain ⟨_, hchildren⟩ := Tree.node.inj hbare
  rw [hchildren]
  exact (hlast hclean).separated

end Syntax

end QuantumScript
