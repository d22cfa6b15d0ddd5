import QuantumScript.Syntax.Reading
import QuantumScript.Proofs.Parsing.Derivations
import QuantumScript.Proofs.Parsing.Soundness
/-!
# Rooted trees

Whatever the source, each statement and each handler in its tree holds a token that is seen: one that
is neither blank nor part of the layout. So does each argument and each part that can name a type. A
compound statement begins with such a token; a simple one takes one wherever no error is booked, and it is an
error node else. The other nodes are made only where such a token comes next, and take it, errors or not.
-/

namespace QuantumScript

namespace Syntax

/-- A token that is seen: no blank, no comment and no part of the layout. -/
def TokenKind.isSolid (kind : TokenKind) : Bool :=
  !Ast.Part.isLayout kind && decide (kind ≠ .endOfInput)

/-- Nodes whose places matter when a script is walked: those whose lines do, and those that are shown. -/
def NodeKind.isPlaced (kind : NodeKind) : Bool :=
  kind.isStatement || [.exceptClause, .argument, .name, .literal, .chain].contains kind

namespace Tree

mutual

/-- Every node in the tree whose place matters holds a token that is seen. -/
def Rooted : Tree → Prop
  | .token _ _ => True
  | .node kind children =>
    (kind.isPlaced = true → ∃ leaf ∈ leavesAll children, leaf.1.isSolid = true) ∧
      RootedAll children

def RootedAll : List Tree → Prop
  | [] => True
  | tree :: trees => Rooted tree ∧ RootedAll trees

end

theorem rootedAll_iff {trees : List Tree} : RootedAll trees ↔ ∀ tree ∈ trees, tree.Rooted := by
  induction trees with
  | nil => simp [RootedAll]
  | cons tree trees ih => simp [RootedAll, ih]

theorem rootedAll_append {trees others : List Tree} :
    RootedAll (trees ++ others) ↔ RootedAll trees ∧ RootedAll others := by
  simp only [rootedAll_iff, List.forall_mem_append]

private theorem rootedAll_reverse {trees : List Tree} : RootedAll trees.reverse ↔ RootedAll trees := by
  simp only [rootedAll_iff, List.mem_reverse]

private theorem rootedAll_leaves (tokens : List Token) : RootedAll (tokens.map Token.leaf) := by
  rw [rootedAll_iff]
  intro tree hmem
  obtain ⟨token, _, rfl⟩ := List.mem_map.mp hmem
  trivial

theorem mem_leavesAll {trees : List Tree} {leaf : TokenKind × List Char} :
    leaf ∈ leavesAll trees ↔ ∃ tree ∈ trees, leaf ∈ tree.leaves := by
  induction trees with
  | nil => simp [leavesAll]
  | cons tree trees ih => simp [leavesAll, ih]

mutual

private theorem leaves_bare_subset (tree : Tree) : tree.bare.leaves ⊆ tree.leaves := by
  match tree with
  | .token kind text => exact List.Subset.refl _
  | .node kind children =>
    rw [bare, leaves, leaves]
    exact leavesAll_bareAll_subset children

private theorem leavesAll_bareAll_subset (trees : List Tree) : leavesAll (bareAll trees) ⊆ leavesAll trees := by
  match trees with
  | [] => exact List.Subset.refl _
  | tree :: trees =>
    have htree := leaves_bare_subset tree
    have htrees := leavesAll_bareAll_subset trees
    rw [bareAll, leavesAll]
    split
    · exact fun leaf hmem => List.mem_append_right _ (htrees hmem)
    · rw [leavesAll]
      intro leaf hmem
      exact List.mem_append.mpr ((List.mem_append.mp hmem).imp (@htree leaf) (@htrees leaf))

end

mutual

private theorem rooted_of_bare (tree : Tree) (h : tree.bare.Rooted) : tree.Rooted := by
  match tree with
  | .token kind text => trivial
  | .node kind children =>
    rw [bare] at h
    refine ⟨?_, rootedAll_of_bareAll children h.2⟩
    intro hplaced
    obtain ⟨leaf, hmem, hsolid⟩ := h.1 hplaced
    exact ⟨leaf, leavesAll_bareAll_subset children hmem, hsolid⟩

private theorem rootedAll_of_bareAll (trees : List Tree) (h : RootedAll (bareAll trees)) : RootedAll trees := by
  match trees with
  | [] => trivial
  | tree :: trees =>
    rw [bareAll] at h
    split at h
    · rename_i htrivia
      refine ⟨?_, rootedAll_of_bareAll trees h⟩
      cases tree with
      | token kind text => trivial
      | node kind children => cases htrivia
    · exact ⟨rooted_of_bare tree h.1, rootedAll_of_bareAll trees h.2⟩

end

end Tree

namespace Sketch

private theorem rootedAll_take {sketch : Sketch} (h : Tree.RootedAll sketch.parts) :
    Tree.RootedAll sketch.take.parts := by
  unfold take
  split
  · exact h
  · exact ⟨trivial, h⟩

private theorem rootedAll_finishStatement {sketch : Sketch} (booked : Nat)
    (h : Tree.RootedAll sketch.parts) :
    Tree.RootedAll (sketch.finishStatement booked).parts := by
  have hskip : ∀ tokens : List Token,
      Tree.RootedAll ((tokens.map Token.leaf).reverse ++ sketch.parts) := fun tokens =>
    Tree.rootedAll_append.mpr ⟨Tree.rootedAll_reverse.mpr (Tree.rootedAll_leaves tokens), h⟩
  unfold finishStatement
  split
  · exact h
  · split <;> exact hskip _

end Sketch

namespace Script

variable {Rule : Type}

/-- How a script can answer, and what is known of the next token then, if no token is taken that is seen. A
strict reading books no error. For each rule the kinds of the next token are given at which it takes a token
that is seen. -/
def idle (strict : Bool) (takers : Rule → Kinds) : Script Rule → Kinds → List (Bool × Kinds)
  | .answer value, known => [(value, known)]
  | .bump kind, _ => if kind.isSolid then [] else [(true, .except [])]
  | .demand kinds, known => live [(true, known.meet (.among kinds))]
  | .advance, known =>
    if known.implies (.except [.newline, .indent, .dedent, .blank, .comment, .endOfInput]) then []
    else [(true, .except [])]
  | .report _, known => if strict then [] else [(false, known)]
  | .ask (.at kinds), known =>
    live [(true, known.meet (.among kinds)), (false, known.meet (.except kinds))]
  | .ask (.atPair _ _), known => [(true, known), (false, known)]
  | .call rule, known =>
    if known.implies (takers rule) then [] else [(true, .except []), (false, .except [])]
  | .seq first second, known =>
    (idle strict takers first known).flatMap fun outcome => idle strict takers second outcome.2
  | .cond test yes no, known =>
    (idle strict takers test known).flatMap fun outcome =>
      if outcome.1 then idle strict takers yes outcome.2 else idle strict takers no outcome.2
  | .node _ body, known | .wrap _ body, known =>
    (idle strict takers body known).map fun outcome => (true, outcome.2)
  | .statement _ body, known =>
    (idle strict takers body known).map fun outcome => (true, if strict then outcome.2 else .except [])
  | .loop body, known => if (idle strict takers body known).isEmpty then [] else [(true, .except [])]
where
  /-- Leaves out what cannot be. -/
  live (outcomes : List (Bool × Kinds)) : List (Bool × Kinds) :=
    outcomes.filter fun outcome => !outcome.2.isNone

private theorem mem_live {outcomes : List (Bool × Kinds)} {answer : Bool} {known : Kinds} {kind : TokenKind}
    (hmem : (answer, known) ∈ outcomes) (hallows : known.allows kind = true) :
    (answer, known) ∈ idle.live outcomes :=
  List.mem_filter.mpr ⟨hmem, by simp [Kinds.isNone_of_allows hallows]⟩

/-- The rules take a token that is seen where it is said that they do. -/
def Takers (grammar : Rule → Script Rule) (strict : Bool) (takers : Rule → Kinds) : Prop :=
  ∀ rule, (takers rule).isNone = true ∨ idle strict takers (grammar rule) (takers rule) = []

/-- What is known of a reading that took the tokens: it booked an error if it was to be strict, or it took a
token that is seen, else its end was foretold. -/
def Tells (strict : Bool) (takers : Rule → Kinds) (script : Script Rule) (sketch : Sketch) (answer : Bool)
    (after : Sketch) (taken : List Token) : Prop :=
  ∀ known : Kinds, known.allows sketch.current = true →
    (strict = true → after.problems.length = sketch.problems.length) →
    (∀ token ∈ taken, token.kind.isSolid = false) →
    ∃ later : Kinds, (answer, later) ∈ idle strict takers script known ∧ later.allows after.current = true

private theorem solid_of_allows {known : Kinds} {kind : TokenKind}
    (himplies : known.implies
      (.except [.newline, .indent, .dedent, .blank, .comment, .endOfInput]) = true)
    (hallows : known.allows kind = true) : kind.isSolid = true := by
  have hkind := Kinds.allows_of_implies himplies hallows
  rw [Kinds.allows_except] at hkind
  cases kind <;> first | rfl | cases hkind

private theorem mem_loop {strict : Bool} {takers : Rule → Kinds} {body : Script Rule} {known later : Kinds}
    {answer : Bool} (hmem : (answer, later) ∈ idle strict takers body known) :
    (true, .except []) ∈ idle strict takers (.loop body) known := by
  rw [idle, if_neg]
  · exact List.mem_singleton_self _
  · intro hempty
    rw [List.isEmpty_iff.mp hempty] at hmem
    cases hmem

private theorem eq_of_mem_loop {strict : Bool} {takers : Rule → Kinds} {body : Script Rule}
    {known later : Kinds} {answer : Bool} (hmem : (answer, later) ∈ idle strict takers (.loop body) known) :
    answer = true ∧ later = .except [] := by
  rw [idle] at hmem
  split at hmem
  · cases hmem
  · exact Prod.mk.inj (List.mem_singleton.mp hmem)

private theorem Tells.then {strict : Bool} {takers : Rule → Kinds} {first second both : Script Rule}
    {sketch mid after : Sketch} {ignored answer : Bool} {taken more : List Token}
    (htakes : sketch.Takes mid taken) (hmore : mid.Takes after more)
    (hfirst : Tells strict takers first sketch ignored mid taken)
    (hsecond : Tells strict takers second mid answer after more)
    (hboth : ∀ {known between later : Kinds}, (ignored, between) ∈ idle strict takers first known →
      (answer, later) ∈ idle strict takers second between →
      (answer, later) ∈ idle strict takers both known) :
    Tells strict takers both sketch answer after (taken ++ more) := by
  intro known hallows hlength hblank
  obtain ⟨between, hmem, hbetween⟩ := hfirst known hallows
    (fun hstrict => (htakes.problems_split hmore (hlength hstrict)).1)
    fun token hmem => hblank token (List.mem_append_left _ hmem)
  obtain ⟨later, hmem', hlater⟩ := hsecond between hbetween
    (fun hstrict => (htakes.problems_split hmore (hlength hstrict)).2)
    fun token hmem => hblank token (List.mem_append_right _ hmem)
  exact ⟨later, hboth hmem hmem', hlater⟩

/-- A reading takes tokens from the front, and what it can do without taking one that is seen is
foretold. -/
theorem Reads.tells {grammar : Rule → Script Rule} {strict : Bool} {takers : Rule → Kinds}
    (htakers : Takers grammar strict takers) {script : Script Rule} {sketch after : Sketch} {answer : Bool}
    (h : Reads grammar script sketch answer after) :
    ∃ taken, sketch.Takes after taken ∧ Tells strict takers script sketch answer after taken := by
  induction h with
  | answer value sketch =>
    exact ⟨[], .refl sketch, fun known hallows _ _ => ⟨known, List.mem_singleton_self _, hallows⟩⟩
  | @bump kind sketch hcurrent =>
    obtain ⟨rest, parts, problems⟩ := sketch
    cases rest with
    | nil =>
      refine ⟨[], .refl _, ?_⟩
      intro known _ _ _
      have hend : kind = .endOfInput := hcurrent.symm
      exact ⟨.except [], by simp [idle, hend, TokenKind.isSolid], Kinds.allows_all _⟩
    | cons token rest =>
      refine ⟨[token], .take rest token parts problems, ?_⟩
      intro known _ _ hblank
      have hsolid : kind.isSolid = false := by
        rw [← hcurrent]
        exact hblank token (List.mem_singleton_self token)
      exact ⟨.except [], by simp [idle, hsolid], Kinds.allows_all _⟩
  | @demand kinds sketch hcurrent =>
    refine ⟨[], .refl _, ?_⟩
    intro known hallows _ _
    have hboth : (known.meet (.among kinds)).allows sketch.current = true := by
      rw [Kinds.allows_meet, hallows, Kinds.allows_among, hcurrent]
      rfl
    exact ⟨_, mem_live (List.mem_singleton_self _) hboth, hboth⟩
  | @advance sketch hcurrent =>
    obtain ⟨rest, parts, problems⟩ := sketch
    cases rest with
    | nil => exact absurd rfl hcurrent
    | cons token rest =>
      refine ⟨[token], .take rest token parts problems, ?_⟩
      intro known hallows _ hblank
      refine ⟨.except [], ?_, Kinds.allows_all _⟩
      rw [idle, if_neg]
      · exact List.mem_singleton_self _
      · intro himplies
        have hsolid := solid_of_allows himplies hallows
        rw [Sketch.current, hblank token (List.mem_singleton_self token)] at hsolid
        cases hsolid
  | report problem sketch =>
    refine ⟨[], .book sketch problem, ?_⟩
    intro known hallows hlength _
    cases strict with
    | true => simp [Sketch.book] at hlength
    | false => exact ⟨known, List.mem_singleton_self _, hallows⟩
  | ask question sketch =>
    refine ⟨[], .refl _, ?_⟩
    intro known hallows _ _
    cases question with
    | «at» kinds =>
      cases hholds : sketch.holds (.at kinds) with
      | true =>
        have hboth : (known.meet (.among kinds)).allows sketch.current = true := by
          rw [Kinds.allows_meet, hallows, Kinds.allows_among]
          exact hholds
        exact ⟨_, mem_live List.mem_cons_self hboth, hboth⟩
      | false =>
        have hboth : (known.meet (.except kinds)).allows sketch.current = true := by
          rw [Kinds.allows_meet, hallows, Kinds.allows_except]
          exact Bool.not_eq_true' _ |>.mpr hholds
        exact ⟨_, mem_live (List.mem_cons_of_mem _ List.mem_cons_self) hboth, hboth⟩
    | atPair kinds second =>
      refine ⟨known, ?_, hallows⟩
      cases sketch.holds (.atPair kinds second)
      · exact List.mem_cons_of_mem _ List.mem_cons_self
      · exact List.mem_cons_self
  | @call rule sketch after answer hrule ih =>
    obtain ⟨taken, htakes, htells⟩ := ih
    refine ⟨taken, htakes, ?_⟩
    intro known hallows hlength hblank
    refine ⟨.except [], ?_, Kinds.allows_all _⟩
    rw [idle, if_neg]
    · cases answer <;> simp
    · intro htaker
      have hcurrent := Kinds.allows_of_implies htaker hallows
      obtain ⟨later, hmem, _⟩ := htells (takers rule) hcurrent hlength hblank
      rcases htakers rule with hnone | hidle
      · rw [Kinds.isNone_of_allows hcurrent] at hnone
        cases hnone
      · rw [hidle] at hmem
        cases hmem
  | seq hfirst hsecond ihfirst ihsecond =>
    obtain ⟨taken, htakes, htells⟩ := ihfirst
    obtain ⟨more, hmore, hthen⟩ := ihsecond
    exact ⟨taken ++ more, htakes.trans hmore, .then htakes hmore htells hthen
      fun hmem hmem' => List.mem_flatMap.mpr ⟨_, hmem, hmem'⟩⟩
  | yes htest hyes ihtest ihyes =>
    obtain ⟨taken, htakes, htells⟩ := ihtest
    obtain ⟨more, hmore, hthen⟩ := ihyes
    exact ⟨taken ++ more, htakes.trans hmore, .then htakes hmore htells hthen
      fun hmem hmem' => List.mem_flatMap.mpr ⟨_, hmem, hmem'⟩⟩
  | no htest hno ihtest ihno =>
    obtain ⟨taken, htakes, htells⟩ := ihtest
    obtain ⟨more, hmore, hthen⟩ := ihno
    exact ⟨taken ++ more, htakes.trans hmore, .then htakes hmore htells hthen
      fun hmem hmem' => List.mem_flatMap.mpr ⟨_, hmem, hmem'⟩⟩
  | node hbody ih =>
    obtain ⟨taken, htakes, htells⟩ := ih
    refine ⟨taken, htakes.node _, ?_⟩
    intro known hallows hlength hblank
    obtain ⟨later, hmem, hlater⟩ := htells known hallows hlength hblank
    exact ⟨later, List.mem_map.mpr ⟨_, hmem, rfl⟩, hlater⟩
  | wrap hbody ih =>
    obtain ⟨taken, htakes, htells⟩ := ih
    refine ⟨taken, htakes.wrap _, ?_⟩
    intro known hallows hlength hblank
    obtain ⟨later, hmem, hlater⟩ := htells known hallows hlength hblank
    exact ⟨later, List.mem_map.mpr ⟨_, hmem, rfl⟩, hlater⟩
  | @statement kind body sketch mid after _ hbody hafter ih =>
    obtain ⟨taken, htakes, htells⟩ := ih
    obtain ⟨more, hmore, hstays⟩ := Sketch.Takes.finishStatement mid sketch.problems.length
    rw [hafter] at hmore hstays
    refine ⟨taken ++ more, (htakes.trans hmore).node _, ?_⟩
    intro known hallows hlength hblank
    obtain ⟨later, hmem, hlater⟩ := htells known hallows
      (fun hstrict => (htakes.problems_split hmore (hlength hstrict)).1)
      fun token hmem => hblank token (List.mem_append_left _ hmem)
    refine ⟨_, List.mem_map.mpr ⟨_, hmem, rfl⟩, ?_⟩
    cases strict with
    | true =>
      rw [← hstays (hlength rfl)] at hlater
      exact hlater
    | false => exact Kinds.allows_all _
  | stop hbody ih =>
    obtain ⟨taken, htakes, htells⟩ := ih
    refine ⟨taken, htakes, ?_⟩
    intro known hallows hlength hblank
    obtain ⟨later, hmem, -⟩ := htells known hallows hlength hblank
    exact ⟨_, mem_loop hmem, Kinds.allows_all _⟩
  | round hbody hless hloop ihbody ihloop =>
    obtain ⟨taken, htakes, htells⟩ := ihbody
    obtain ⟨more, hmore, hthen⟩ := ihloop
    refine ⟨taken ++ more, htakes.trans hmore, .then htakes hmore htells hthen ?_⟩
    intro known between later hmem hmem'
    obtain ⟨rfl, rfl⟩ := eq_of_mem_loop hmem'
    exact mem_loop hmem

/-- Every reading takes tokens from the front. -/
theorem Reads.takes {grammar : Rule → Script Rule} {script : Script Rule} {sketch after : Sketch}
    {answer : Bool} (h : Reads grammar script sketch answer after) :
    ∃ taken, sketch.Takes after taken := by
  have htakers : Takers grammar false fun _ => .among [] := fun _ => .inl rfl
  obtain ⟨taken, htakes, -⟩ := h.tells htakers
  exact ⟨taken, htakes⟩

private theorem Reads.busy {grammar : Rule → Script Rule} {strict : Bool} {takers : Rule → Kinds}
    (htakers : Takers grammar strict takers) {script : Script Rule} {sketch after : Sketch} {answer : Bool}
    (h : Reads grammar script sketch answer after) {known : Kinds}
    (hallows : known.allows sketch.current = true) (hidle : (idle strict takers script known).isEmpty = true)
    (hclean : strict = true → after.problems.length = sketch.problems.length) :
    ∃ taken, sketch.Takes after taken ∧ ∃ token ∈ taken, token.kind.isSolid = true := by
  obtain ⟨taken, htakes, htells⟩ := h.tells htakers
  refine ⟨taken, htakes, Classical.byContradiction fun hnone => ?_⟩
  have hblank : ∀ token ∈ taken, token.kind.isSolid = false := fun token hmem =>
    Bool.eq_false_iff.mpr fun hsolid => hnone ⟨token, hmem, hsolid⟩
  obtain ⟨later, hmem, -⟩ := htells known hallows hclean hblank
  rw [List.isEmpty_iff.mp hidle] at hmem
  cases hmem

/-- What is known of the next token after a test has answered. -/
def tested : Script Rule → Kinds → Bool → Kinds
  | .ask (.at kinds), known, true => known.meet (.among kinds)
  | .ask (.at kinds), known, false => known.meet (.except kinds)
  | _, _, _ => .except []

theorem Reads.tested {grammar : Rule → Script Rule} {test : Script Rule} {sketch after : Sketch}
    {way : Bool} (h : Reads grammar test sketch way after) {known : Kinds}
    (hallows : known.allows sketch.current = true) :
    (test.tested known way).allows after.current = true := by
  unfold Script.tested
  split
  · rename_i kinds
    generalize hway : true = answer at h
    cases h
    rw [Kinds.allows_meet, hallows, Kinds.allows_among, Bool.true_and]
    rfl
  · rename_i kinds
    generalize hway : false = answer at h
    cases h
    rw [Kinds.allows_meet, hallows, Kinds.allows_except]
    exact (Bool.not_eq_true' _).mpr hway.symm
  · exact Kinds.allows_all _

/-- How the rules of a grammar keep to trees that are rooted. -/
structure Habits (Rule : Type) where
  /-- What is known where a rule is called. -/
  start : Rule → Kinds
  /-- Where a rule takes a token that is seen, errors or not. -/
  leads : Rule → Kinds
  /-- Where it takes one if it is read without an error. -/
  takes : Rule → Kinds

/-- Every node of the script whose place matters takes a token that is seen: a simple statement unless it
becomes an error node, any other one in any case. A node that is labelled by its keyword holds that
keyword. -/
def roots (habits : Habits Rule) : Script Rule → Kinds → Bool
  | .call rule, known => known.implies (habits.start rule)
  | .seq (.demand kinds) second, known => roots habits second (known.meet (.among kinds))
  | .seq first second, known => roots habits first known && roots habits second (.except [])
  | .cond test yes no, known =>
    roots habits test known && roots habits yes (test.tested known true) &&
      roots habits no (test.tested known false)
  | .node (.always kind) body, known | .node (.unlessComprehension kind) body, known | .wrap kind body, known =>
    (!kind.isPlaced || (idle false habits.leads body known).isEmpty) && roots habits body known
  | .node .definition body, known => roots habits body known
  | .statement _ body, known => (idle true habits.takes body known).isEmpty && roots habits body known
  | .loop body, _ => roots habits body (.except [])
  | _, _ => true

/-- The rules keep the trees they make rooted. -/
structure Roots (grammar : Rule → Script Rule) (habits : Habits Rule) : Prop where
  leads : Takers grammar false habits.leads
  takes : Takers grammar true habits.takes
  rules : ∀ rule, roots habits (grammar rule) (habits.start rule) = true

private theorem isSolid_entry {token : Token} (h : token.kind.isSolid = true) :
    token.entry.1.isSolid = true := h

private theorem solid_of_takes {sketch after : Sketch}
    (h : ∃ taken, sketch.Takes after taken ∧ ∃ token ∈ taken, token.kind.isSolid = true) :
    ∃ leaf ∈ Tree.leavesAll after.parts.reverse, leaf.1.isSolid = true := by
  obtain ⟨taken, htakes, token, hmem, hkind⟩ := h
  refine ⟨token.entry, ?_, isSolid_entry hkind⟩
  rw [htakes.leaves]
  exact List.mem_append_right _ (List.mem_map_of_mem hmem)

private theorem solid_of_keyword {children : List Tree} {keyword : Keyword}
    (h : children.any (fun tree => tree.tokenKind? = some (.keyword keyword)) = true) :
    ∃ leaf ∈ Tree.leavesAll children, leaf.1.isSolid = true := by
  obtain ⟨tree, hmem, hkind⟩ := List.any_eq_true.mp h
  cases tree with
  | node kind children => simp [Tree.tokenKind?] at hkind
  | token kind text =>
    simp only [Tree.tokenKind?, Option.some.injEq, decide_eq_true_eq] at hkind
    subst hkind
    exact ⟨_, Tree.mem_leavesAll.mpr ⟨_, hmem, List.mem_singleton_self _⟩, rfl⟩

private theorem rooted_label {habits : Habits Rule} {label : Label} {body : Script Rule} {known : Kinds}
    {children : List Tree} (hroots : roots habits (.node label body) known = true)
    (hleads : (idle false habits.leads body known).isEmpty = true →
      ∃ leaf ∈ Tree.leavesAll children, leaf.1.isSolid = true)
    (hplaced : (label.resolve children).isPlaced = true) :
    ∃ leaf ∈ Tree.leavesAll children, leaf.1.isSolid = true := by
  cases label with
  | always kind =>
    simp only [roots, Bool.and_eq_true, Bool.or_eq_true, Bool.not_eq_true'] at hroots
    refine hleads (hroots.1.resolve_left ?_)
    rw [Label.resolve] at hplaced
    simp [hplaced]
  | unlessComprehension kind =>
    simp only [roots, Bool.and_eq_true, Bool.or_eq_true, Bool.not_eq_true'] at hroots
    refine hleads (hroots.1.resolve_left ?_)
    rw [Label.resolve] at hplaced
    split at hplaced
    · cases hplaced
    · simp [hplaced]
  | definition =>
    rw [Label.resolve] at hplaced
    split at hplaced
    · exact solid_of_keyword ‹_›
    · split at hplaced
      · exact solid_of_keyword ‹_›
      · cases hplaced

private theorem roots_seq {habits : Habits Rule} {first second : Script Rule} {known : Kinds}
    (hroots : roots habits (.seq first second) known = true) :
    (∃ kinds, first = .demand kinds ∧ roots habits second (known.meet (.among kinds)) = true) ∨
      (roots habits first known = true ∧ roots habits second (.except []) = true) := by
  cases first with
  | demand kinds => exact .inl ⟨kinds, rfl, hroots⟩
  | _ => exact .inr (Bool.and_eq_true _ _ ▸ hroots)

private theorem roots_node {habits : Habits Rule} {label : Label} {body : Script Rule}
    {known : Kinds} (hroots : roots habits (.node label body) known = true) :
    roots habits body known = true := by
  cases label with
  | definition => exact hroots
  | _ => exact (Bool.and_eq_true _ _ ▸ hroots).2

private theorem solid_of_statement {grammar : Rule → Script Rule} {habits : Habits Rule}
    (hrules : Roots grammar habits) {body : Script Rule}
    {sketch mid : Sketch} {ignored : Bool} {known : Kinds}
    (hbody : Reads grammar body { sketch with parts := [] } ignored mid)
    (hallows : known.allows sketch.current = true)
    (hidle : (idle true habits.takes body known).isEmpty = true)
    (hclean : (mid.finishStatement sketch.problems.length).problems.length ≤
      sketch.problems.length) :
    ∃ leaf ∈ Tree.leavesAll (mid.finishStatement sketch.problems.length).parts.reverse,
      leaf.1.isSolid = true := by
  obtain ⟨more, hmore, -⟩ := Sketch.Takes.finishStatement mid sketch.problems.length
  obtain ⟨early, hearly⟩ := hbody.takes
  have hlength : mid.problems.length = sketch.problems.length :=
    Nat.le_antisymm (Nat.le_trans hmore.length_problems hclean) hearly.length_problems
  obtain ⟨taken, htakes, token, hmem, hsolid⟩ := hbody.busy hrules.takes hallows hidle fun _ => hlength
  exact solid_of_takes ⟨taken ++ more, htakes.trans hmore, token, List.mem_append_left _ hmem, hsolid⟩

theorem Reads.rooted {grammar : Rule → Script Rule} {habits : Habits Rule}
    (hrules : Roots grammar habits) {script : Script Rule}
    {sketch after : Sketch} {answer : Bool} (h : Reads grammar script sketch answer after)
    {known : Kinds} (hallows : known.allows sketch.current = true)
    (hroots : roots habits script known = true) (hrooted : Tree.RootedAll sketch.parts) :
    Tree.RootedAll after.parts := by
  induction h generalizing known with
  | answer value sketch => exact hrooted
  | bump hcurrent => exact Sketch.rootedAll_take hrooted
  | demand hcurrent => exact hrooted
  | advance hcurrent => exact Sketch.rootedAll_take hrooted
  | report problem sketch => exact hrooted
  | ask question sketch => exact hrooted
  | call hrule ih => exact ih (Kinds.allows_of_implies hroots hallows) (hrules.rules _) hrooted
  | seq hfirst _ ihfirst ihsecond =>
    rcases roots_seq hroots with ⟨kinds, rfl, hlater⟩ | ⟨hnow, hlater⟩
    · cases hfirst with
      | demand hcurrent =>
        refine ihsecond ?_ hlater hrooted
        rw [Kinds.allows_meet, hallows, Kinds.allows_among, hcurrent]
        rfl
    · exact ihsecond (Kinds.allows_all _) hlater (ihfirst hallows hnow hrooted)
  | yes htest hyes ihtest ihyes =>
    rw [roots, Bool.and_eq_true, Bool.and_eq_true] at hroots
    exact ihyes (htest.tested hallows) hroots.1.2 (ihtest hallows hroots.1.1 hrooted)
  | no htest hno ihtest ihno =>
    rw [roots, Bool.and_eq_true, Bool.and_eq_true] at hroots
    exact ihno (htest.tested hallows) hroots.2 (ihtest hallows hroots.1.1 hrooted)
  | node hbody ih =>
    refine ⟨⟨rooted_label hroots fun hidle => ?_, ?_⟩, hrooted⟩
    · exact solid_of_takes (hbody.busy hrules.leads hallows hidle nofun)
    · exact Tree.rootedAll_reverse.mpr (ih hallows (roots_node hroots) trivial)
  | wrap hbody ih =>
    simp only [roots, Bool.and_eq_true, Bool.or_eq_true, Bool.not_eq_true'] at hroots
    refine ⟨⟨fun hplaced => ?_, ?_⟩, hrooted.2⟩
    · have hidle := hroots.1.resolve_left (by simp [hplaced])
      exact solid_of_takes (hbody.busy hrules.leads hallows hidle nofun)
    · exact Tree.rootedAll_reverse.mpr (ih hallows hroots.2 ⟨hrooted.1, trivial⟩)
  | statement hbody hafter ih =>
    subst hafter
    rw [roots, Bool.and_eq_true] at hroots
    refine ⟨⟨?_, ?_⟩, hrooted⟩
    · intro hplaced
      split at hplaced
      · cases hplaced
      · exact solid_of_statement hrules hbody hallows hroots.1 (Nat.not_lt.mp ‹_›)
    · apply Tree.rootedAll_reverse.mpr
      exact Sketch.rootedAll_finishStatement _ (ih hallows hroots.2 trivial)
  | stop hbody ih => exact ih (Kinds.allows_all _) hroots hrooted
  | round hbody hless hloop ihbody ihloop =>
    exact ihloop (Kinds.allows_all _) hroots (ihbody (Kinds.allows_all _) hroots hrooted)

end Script

namespace Rule

/-- How the rules of the grammar keep to rooted trees. A rule that promises to have made a node leads with a
token that is seen. -/
def habits : Script.Habits Rule where
  start
    | .argument => .among Production.argumentFirst
    | _ => .except []
  leads rule :=
    match rule.promises with
    | (kinds, [_]) :: _ => kinds
    | _ => .among []
  takes
    | .clauses | .elseClause | .statement | .simpleLine | .suite => .among []
    | _ => .except []

private theorem roots_grammar : Script.Roots grammar habits := by
  constructor <;> intro rule <;> cases rule <;> decide

end Rule

/-- Whatever the source, the nodes of its tree whose places matter hold tokens that are seen. -/
theorem parse_rooted (source : List Char) : (parse source).tree.Rooted := by
  obtain ⟨next, sketch, hrun, hread, hsketched, -⟩ := Script.run_file (Token.ofText source)
  have hsketch : Tree.RootedAll sketch.parts :=
    (Script.reads_of_read hread).rooted Rule.roots_grammar
      (Kinds.allows_except [] _) (by decide) trivial
  obtain ⟨top, htop, hparts⟩ := hsketched.parts
  have hnext : Tree.RootedAll next.parts := by
    apply Tree.rootedAll_of_bareAll
    rw [htop, List.append_nil, hparts]
    exact hsketch
  have hdone : parseTokens (Token.ofText source) = next.shiftWhile fun _ => true := by
    rw [parseTokens, hrun]
  constructor
  · intro hplaced
    cases hplaced
  · rw [hdone, Parse.shiftWhile_eq, Tree.rootedAll_reverse, Tree.rootedAll_append,
      Tree.rootedAll_reverse]
    exact ⟨Tree.rootedAll_leaves _, hnext⟩

end Syntax

end QuantumScript
