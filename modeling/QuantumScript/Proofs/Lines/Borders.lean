import QuantumScript.Proofs.Seams.Layouts
import QuantumScript.Proofs.Parsing.Balance
import QuantumScript.Proofs.Printing.Levels
/-!
# Borders of lines

The tokens of every text stand in order: blocks are opened and closed in pairs at ever greater widths, a
line ends after a token that stands on it, blocks are opened and closed only between lines, and none of
this happens within brackets before the text has ended.
-/

namespace QuantumScript

namespace Syntax

namespace TokenKind

/-- Kinds of the tokens that stand between logical lines. -/
def borders : List TokenKind := [.newline, .indent, .dedent]

private theorem count_of_turns {count left : Nat} {kinds : List TokenKind} (h : turns count kinds = some left) :
    count + kinds.count .indent = left + kinds.count .dedent := by
  induction kinds generalizing count with
  | nil =>
    cases h
    rfl
  | cons kind kinds ih =>
    obtain ⟨mid, hmid, hrest⟩ := Option.bind_eq_some_iff.mp h
    have hcount := ih hrest
    rw [List.count_cons, List.count_cons]
    cases kind with
    | indent =>
      cases hmid
      simp only [beq_self_eq_true, if_true, reduceCtorEq, beq_iff_eq, if_false]
      omega
    | dedent =>
      rw [turn] at hmid
      split at hmid <;> cases hmid
      simp only [beq_self_eq_true, if_true, reduceCtorEq, beq_iff_eq, if_false]
      omega
    | _ =>
      cases hmid
      simpa using hcount

end TokenKind

namespace Layout

open TokenKind

/-- The widths of the open blocks rise from the margin. -/
def Rising (blocks : List Nat) : Prop := (0 :: blocks.reverse).Pairwise (· < ·)

theorem rising_nil : Rising [] := List.pairwise_singleton _ _

/-- Innermost first, each block is wider than the one around it. -/
theorem rising_cons {block : Nat} {blocks : List Nat} :
    Rising (block :: blocks) ↔ level blocks < block ∧ Rising blocks := by
  have hlast : (0 :: blocks.reverse).getLast? = some (level blocks) := by
    rw [List.getLast?_cons, List.getLast?_reverse]
    cases blocks <;> rfl
  have hsplit : 0 :: (block :: blocks).reverse = (0 :: blocks.reverse) ++ [block] := by simp
  rw [Rising, hsplit, List.pairwise_append]
  constructor
  · rintro ⟨hblocks, -, hless⟩
    exact ⟨hless _ (List.mem_of_getLast? hlast) _ (by simp), hblocks⟩
  · rintro ⟨hless, hblocks⟩
    refine ⟨hblocks, List.pairwise_singleton _ _, fun other hmem wide hwide => ?_⟩
    obtain rfl := List.mem_singleton.mp hwide
    obtain ⟨front, hfront⟩ := List.getLast?_eq_some_iff.mp hlast
    rw [Rising, hfront] at hblocks
    rw [hfront] at hmem
    rcases List.mem_append.mp hmem with hmem | hmem
    · have hlevel := (List.pairwise_append.mp hblocks).2.2 other hmem (level blocks) (by simp)
      omega
    · obtain rfl := List.mem_singleton.mp hmem
      exact hless

private theorem rising_unindent (width : Nat) {blocks : List Nat} (h : Rising blocks) :
    Rising (unindent width blocks).2 := by
  induction blocks with
  | nil =>
    unfold unindent
    split
    · exact h
    · exact rising_cons.mpr ⟨show 0 < width by omega, h⟩
  | cons block blocks ih =>
    unfold unindent
    split
    · exact ih (rising_cons.mp h).2
    · split
      · exact h
      · exact rising_cons.mpr ⟨show block < width by omega, h⟩

private theorem rising_reindent (width : Nat) {blocks : List Nat} (h : Rising blocks) :
    Rising (reindent width blocks).2 := by
  unfold reindent
  split
  · rename_i hless
    exact rising_cons.mpr ⟨hless, h⟩
  · exact rising_unindent width h

private theorem rising_step {layout : Layout} (h : Rising layout.blocks) (lexeme : Lexeme) :
    Rising (layout.step lexeme).2.blocks := by
  unfold step
  dsimp only
  split
  · exact h
  · exact h
  · exact h
  · split
    · exact rising_reindent _ h
    · exact h

theorem rising_steps {layout : Layout} (h : Rising layout.blocks) (lexemes : List Lexeme) :
    Rising (lexemes.foldl (fun layout lexeme => (layout.step lexeme).2) layout).blocks := by
  induction lexemes generalizing layout with
  | nil => exact h
  | cons lexeme lexemes ih => exact ih (rising_step h lexeme)

end Layout

namespace Token

open TokenKind

/-- The last token so far that the grammar sees. -/
def last? (tokens : List Token) : Option Token := (significant tokens).getLast?

/-- The place of a token that stands between lines. -/
structure Seated (before : List Token) (token : Token) (after : List Token) : Prop where
  /-- A line that ends holds a token. -/
  line : token.kind = .newline → ∃ last ∈ last? before, last.kind ∉ borders
  /-- Blocks are opened and closed between lines. -/
  block : token.kind ∈ TokenKind.edges → ∀ last ∈ last? before, last.kind ∈ borders
  /-- Lines end outside brackets, unless the text ends. -/
  outside : token.kind ∈ borders →
    Layout.nestAll 0 before = 0 ∨ (token :: after).flatMap Token.text = []

private theorem Seated.of_inside {before after : List Token} {token : Token} (h : token.kind ∉ borders) :
    Seated before token after where
  line hkind := absurd (by rw [hkind]; decide) h
  block hkind := absurd (List.mem_cons_of_mem _ hkind) h
  outside hkind := absurd hkind h

private theorem last?_append_significant {before : List Token} {token : Token}
    (h : token.kind.isTrivia = false) : last? (before ++ [token]) = some token := by
  rw [last?, significant_append, Layout.significant_singleton h, List.getLast?_concat]

private theorem last?_append_trivia {before tokens : List Token} (h : significant tokens = []) :
    last? (before ++ tokens) = last? before := by
  rw [last?, significant_append, h, List.append_nil, last?]

theorem borders_last?_append {before opening : List Token}
    (h : ∀ last ∈ last? before, last.kind ∈ borders)
    (hopening : ∀ token ∈ opening, token.kind = .indent ∨ token.kind = .dedent) :
    ∀ last ∈ last? (before ++ opening), last.kind ∈ borders := by
  intro last hlast
  rw [last?, significant_append, Layout.significant_edges hopening, List.getLast?_append,
    Option.mem_def, Option.or_eq_some_iff] at hlast
  rcases hlast with hlast | ⟨_, hlast⟩
  · rcases hopening last (List.mem_of_getLast? hlast) with hkind | hkind <;> rw [hkind] <;> decide
  · exact h last hlast

end Token

namespace Layout

open TokenKind Token

private theorem nestAll_level {brackets : Nat} {tokens : List Token}
    (h : ∀ token ∈ tokens, token.kind.opens = false ∧ token.kind.closes = false) :
    nestAll brackets tokens = brackets := by
  induction tokens with
  | nil => rfl
  | cons token tokens ih =>
    have hnest : nest brackets token.kind = brackets := by
      rw [nest, (h token (by simp)).1, (h token (by simp)).2]
      rfl
    change nestAll (nest brackets token.kind) tokens = brackets
    rw [hnest, ih fun other hmem => h other (by simp [hmem])]

private theorem level_of_edges {tokens : List Token}
    (h : ∀ token ∈ tokens, token.kind = .indent ∨ token.kind = .dedent) :
    ∀ token ∈ tokens, token.kind.opens = false ∧ token.kind.closes = false := by
  intro token hmem
  rcases h token hmem with hkind | hkind <;> rw [hkind] <;> exact ⟨rfl, rfl⟩

private theorem trivia_of_significant {tokens : List Token} (h : significant tokens = []) :
    ∀ token ∈ tokens, token.kind.isTrivia = true := by
  intro token hmem
  have htrivia := List.filter_eq_nil_iff.mp h token hmem
  simpa [Token.isTrivia] using htrivia

private theorem level_of_trivia {kind : TokenKind} (h : kind.isTrivia = true) :
    kind.opens = false ∧ kind.closes = false := by
  cases kind <;> simp_all [TokenKind.isTrivia, opens, closes]

private theorem not_borders_of_trivia {kind : TokenKind} (h : kind.isTrivia = true) :
    kind ∉ borders := by
  cases kind <;> simp_all [TokenKind.isTrivia, borders]

private theorem not_borders_of_inline {token : Token} (h : token.Inline) : token.kind ∉ borders := by
  have hedges := h.2
  simp only [Token.edges, borders, List.mem_cons, not_or] at hedges ⊢
  exact ⟨hedges.1, hedges.2.1, hedges.2.2.1, hedges.2.2.2.2⟩

/-- The layout after some tokens agrees with what they say about lines and brackets. -/
structure Reflects (layout : Layout) (before : List Token) : Prop where
  sane : layout.Sane
  brackets : nestAll 0 before = layout.brackets
  /-- At the start of a line the last line has ended. -/
  fresh : layout.atLineStart = true → ∀ last ∈ last? before, last.kind = .newline
  /-- On a line that has begun a token stands. -/
  begun : layout.atLineStart = false → ∃ last ∈ last? before, last.kind ∉ borders
  /-- Before the first line no block is open. -/
  empty : significant before = [] → layout.blocks = []

private theorem reflects_start : start.Reflects [] where
  sane := sane_start
  brackets := rfl
  fresh _ _ hlast := nomatch hlast
  begun := nofun
  empty _ := rfl

theorem Reflects.place {layout : Layout} {before : List Token} (h : layout.Reflects before)
    {token : Token} (hraw : Solid token → token.Inline) :
    (layout.place token).2.Reflects (before ++ (layout.place token).1) := by
  have hsane := h.sane.place token
  rcases layout.place_cases token with ⟨hnone, hblocks, hbrackets, hsame⟩ | ⟨hfresh, hzero, hkind, heq⟩ |
    ⟨hsolid, hfresh, heq⟩ | ⟨hsolid, hfresh, heq⟩
  · have hlevel : nestAll layout.brackets (layout.place token).1 = layout.brackets :=
      nestAll_level fun other hmem => level_of_trivia (trivia_of_significant hnone other hmem)
    refine ⟨hsane, ?_, ?_, ?_, ?_⟩
    · rw [nestAll_append, h.brackets, hlevel, hbrackets]
    · rw [last?_append_trivia hnone, hsame h.sane]
      exact h.fresh
    · rw [last?_append_trivia hnone, hsame h.sane]
      exact h.begun
    · rw [significant_append, hnone, List.append_nil, hblocks]
      exact h.empty
  · have htrivia : token.kind.isTrivia = false := by
      rw [hkind]
      rfl
    rw [heq] at hsane ⊢
    refine ⟨hsane, ?_, fun _ last hlast => ?_, nofun, fun hnone => ?_⟩
    · rw [nestAll_append, h.brackets, nestAll_level, hzero]
      rw [List.forall_mem_singleton, hkind]
      exact ⟨rfl, rfl⟩
    · rw [last?_append_significant htrivia] at hlast
      cases hlast
      exact hkind
    · rw [significant_append, significant_singleton htrivia] at hnone
      simp at hnone
  · rw [heq] at hsane ⊢
    refine ⟨hsane, ?_, nofun, fun _ => ⟨token, ?_, not_borders_of_inline (hraw hsolid)⟩, fun hnone => ?_⟩
    · rw [nestAll_append, nestAll_append, h.brackets,
        nestAll_level (level_of_edges (edges_reindent layout.width layout.blocks))]
      rfl
    · rw [← List.append_assoc, last?_append_significant hsolid.1]
      rfl
    · rw [significant_append, significant_append, significant_singleton hsolid.1] at hnone
      simp at hnone
  · rw [heq] at hsane ⊢
    refine ⟨hsane, ?_, nofun, fun _ => ⟨token, ?_, not_borders_of_inline (hraw hsolid)⟩, fun hnone => ?_⟩
    · rw [nestAll_append, h.brackets]
      rfl
    · rw [last?_append_significant hsolid.1]
      rfl
    · rw [significant_append, significant_singleton hsolid.1] at hnone
      simp at hnone

private theorem Reflects.seated_place {layout : Layout} {before : List Token} (h : layout.Reflects before)
    {token : Token} (hraw : Solid token → token.Inline) {front back : List Token} {placed : Token}
    (hplace : (layout.place token).1 = front ++ placed :: back) (after : List Token) :
    Seated (before ++ front) placed after := by
  have hmem : placed ∈ (layout.place token).1 := by simp [hplace]
  rcases layout.place_cases token with ⟨hnone, _⟩ | ⟨hfresh, hzero, hkind, heq⟩ |
    ⟨hsolid, hfresh, heq⟩ | ⟨hsolid, _, heq⟩
  · exact .of_inside (not_borders_of_trivia (trivia_of_significant hnone placed hmem))
  · rw [heq, ← List.nil_append [token]] at hplace
    obtain ⟨rfl, hplaced⟩ : front = [] ∧ placed :: back = [token] := by
      cases front <;> simp_all
    obtain ⟨rfl, rfl⟩ := List.cons.inj hplaced
    rw [List.append_nil]
    refine ⟨fun _ => h.begun hfresh, fun hedge => ?_, fun _ => .inl (h.brackets.trans hzero)⟩
    rw [hkind] at hedge
    exact absurd hedge (by decide)
  · rw [heq] at hplace
    have hedges := edges_reindent layout.width layout.blocks
    rcases List.append_eq_append_iff.mp hplace with ⟨more, -, hlast⟩ | ⟨more, hopening, hback⟩
    · have hself : placed ∈ [token] := by simp [hlast]
      obtain rfl := List.mem_singleton.mp hself
      exact .of_inside (not_borders_of_inline (hraw hsolid))
    · cases more with
      | nil =>
        obtain ⟨rfl, rfl⟩ := List.cons.inj hback
        exact .of_inside (not_borders_of_inline (hraw hsolid))
      | cons other more =>
        obtain ⟨rfl, rfl⟩ := List.cons.inj hback
        rw [hopening] at hedges
        have hfront : ∀ other ∈ front, other.kind = .indent ∨ other.kind = .dedent :=
          fun other hmem => hedges other (by simp [hmem])
        refine ⟨fun hkind => ?_, fun _ => ?_, fun _ => .inl ?_⟩
        · rcases hedges placed (by simp) with hother | hother <;> rw [hkind] at hother <;> cases hother
        · refine borders_last?_append (fun last hlast => ?_) hfront
          rw [h.fresh hfresh last hlast]
          decide
        · rw [nestAll_append, h.brackets, nestAll_level (level_of_edges hfront), h.sane.fresh hfresh]
  · rw [heq] at hmem
    obtain rfl := List.mem_singleton.mp hmem
    exact .of_inside (not_borders_of_inline (hraw hsolid))

private theorem edges_finish (blocks : List Nat) :
    ∀ token ∈ blocks.map fun _ => Token.dedent, token.kind = .indent ∨ token.kind = .dedent := by
  intro token hmem
  obtain ⟨_, _, rfl⟩ := List.mem_map.mp hmem
  exact .inr rfl

private theorem Reflects.seated_finish {layout : Layout} {before : List Token} (h : layout.Reflects before)
    {front back : List Token} {token : Token} (hfinish : layout.finish = front ++ token :: back) :
    Seated (before ++ front) token back := by
  have hempty : (token :: back).flatMap Token.text = [] := by
    have htext := flatMap_text_finish layout
    rw [hfinish, List.flatMap_append] at htext
    exact (List.append_eq_nil_iff.mp htext).2
  have hclosers := edges_finish layout.blocks
  have hnot (hmem : token ∈ layout.blocks.map fun _ => Token.dedent) : token.kind ≠ .newline := by
    intro hkind
    rcases hclosers token hmem with hother | hother <;> rw [hkind] at hother <;> cases hother
  rw [finish] at hfinish
  cases hfresh : layout.atLineStart with
  | true =>
    rw [hfresh, if_pos rfl, List.nil_append] at hfinish
    rw [hfinish] at hclosers hnot
    refine ⟨fun hkind => absurd hkind (hnot (by simp)), fun _ => ?_, fun _ => .inr hempty⟩
    refine borders_last?_append (fun last hlast => ?_) fun other hmem => hclosers other (by simp [hmem])
    rw [h.fresh hfresh last hlast]
    decide
  | false =>
    rw [hfresh, if_neg Bool.false_ne_true, List.singleton_append] at hfinish
    cases front with
    | nil =>
      obtain ⟨rfl, rfl⟩ := List.cons.inj hfinish
      rw [List.append_nil]
      exact ⟨fun _ => h.begun hfresh, fun hedge => absurd hedge (by decide), fun _ => .inr hempty⟩
    | cons stop front =>
      obtain ⟨rfl, hrest⟩ := List.cons.inj hfinish
      rw [hrest] at hclosers hnot
      refine ⟨fun hkind => absurd hkind (hnot (by simp)), fun _ => ?_, fun _ => .inr hempty⟩
      rw [List.append_cons]
      refine borders_last?_append (fun last hlast => ?_) fun other hmem => hclosers other (by simp [hmem])
      rw [last?_append_significant rfl] at hlast
      cases hlast
      decide

/-- Every token placed for a text stands where it may. The induction is on the tokens of the text. -/
theorem Reflects.seated {layout : Layout} {before : List Token} (h : layout.Reflects before)
    {tokens : List Token} (hraw : ∀ token ∈ tokens, Solid token → token.Inline)
    {front back : List Token} {token : Token} (htokens : layout.placeAll tokens = front ++ token :: back) :
    Seated (before ++ front) token back := by
  induction tokens generalizing layout before front with
  | nil => exact h.seated_finish htokens
  | cons first tokens ih =>
    have hfirst := hraw first (by simp)
    rw [placeAll] at htokens
    rcases List.append_eq_append_iff.mp htokens with ⟨more, hfront, hlast⟩ | ⟨more, hopening, hback⟩
    · rw [hfront, ← List.append_assoc]
      exact ih (h.place hfirst) (fun other hmem => hraw other (by simp [hmem])) hlast
    · cases more with
      | nil =>
        rw [List.nil_append] at hback
        have hnext : Seated (before ++ (layout.place first).1 ++ []) token back :=
          ih (h.place hfirst) (fun other hmem => hraw other (by simp [hmem])) hback.symm
        rwa [hopening, List.append_nil, List.append_nil] at hnext
      | cons other more =>
        obtain ⟨rfl, rfl⟩ := List.cons.inj hback
        exact h.seated_place hfirst hopening _

theorem Reflects.after {layout : Layout} {before : List Token} (h : layout.Reflects before)
    {tokens : List Token} (hraw : ∀ token ∈ tokens, Solid token → token.Inline) :
    (layout.after tokens).Reflects (before ++ layout.placed tokens) := by
  induction tokens generalizing layout before with
  | nil =>
    rw [placed, List.append_nil]
    exact h
  | cons token tokens ih =>
    rw [placed, ← List.append_assoc]
    exact ih (h.place (hraw token (by simp))) fun other hmem => hraw other (by simp [hmem])

theorem Reflects.ends {layout : Layout} {before : List Token} (h : layout.Reflects before)
    (hsome : significant (before ++ layout.finish) ≠ []) :
    ∃ front stop closers, significant (before ++ layout.finish) = front ++ stop :: closers ∧
      stop.kind = .newline ∧ ∀ token ∈ closers, token.kind = .dedent := by
  have hclosers : ∀ token ∈ layout.blocks.map fun _ => Token.dedent, token.kind = .dedent := by
    intro token hmem
    obtain ⟨_, _, rfl⟩ := List.mem_map.mp hmem
    rfl
  have hshown := significant_edges (edges_finish layout.blocks)
  rw [significant_append, finish, significant_append, hshown] at hsome ⊢
  cases hfresh : layout.atLineStart with
  | true =>
    rw [hfresh, if_pos rfl] at hsome
    rw [if_pos rfl]
    rcases List.eq_nil_or_concat (significant before) with hnone | ⟨front, stop, hbefore⟩
    · rw [hnone, h.empty hnone] at hsome
      exact absurd rfl hsome
    · refine ⟨front, stop, _, ?_, h.fresh hfresh stop ?_, hclosers⟩
      · rw [hbefore]
        simp [significant]
      · rw [last?, hbefore, List.concat_eq_append, List.getLast?_concat]
        rfl
  | false =>
    rw [if_neg Bool.false_ne_true]
    exact ⟨significant before, lineEnd, _, rfl, rfl, hclosers⟩

end Layout

open TokenKind in
/-- The tokens of every text stand in order. -/
theorem Token.ofText_ordered (text : List Char) :
    (∀ kinds, kinds <+: (ofText text).map Token.kind → kinds.count .dedent ≤ kinds.count .indent) ∧
    ((ofText text).map Token.kind).count .indent = ((ofText text).map Token.kind).count .dedent ∧
    (∀ lexemes, lexemes <+: Lexeme.ofText text → Layout.Rising
      (lexemes.foldl (fun layout lexeme => (layout.step lexeme).2) Layout.start).blocks) ∧
    (∀ before token after, ofText text = before ++ token :: after → Seated before token after) ∧
    (significant (ofText text) ≠ [] → ∃ front stop closers,
      significant (ofText text) = front ++ stop :: closers ∧ stop.kind = .newline ∧
        ∀ token ∈ closers, token.kind = .dedent) := by
  have hturns := turns_ofText text
  have hplaced : ofText text = Layout.start.placeAll (cut text) := Layout.tokens_eq_placeAll ..
  have hraw : ∀ token ∈ cut text, Layout.Solid token → token.Inline := fun _ => inline_of_mem_cut
  refine ⟨fun kinds hprefix => ?_, ?_, fun lexemes _ => ?_, fun before token after htext => ?_,
    fun hsome => ?_⟩
  · obtain ⟨more, hmore⟩ := hprefix
    rw [← hmore, turns_append] at hturns
    obtain ⟨left, hleft, -⟩ := Option.bind_eq_some_iff.mp hturns
    have hcount := count_of_turns hleft
    omega
  · have hcount := count_of_turns hturns
    omega
  · exact Layout.rising_steps Layout.rising_nil lexemes
  · exact Layout.reflects_start.seated hraw (hplaced.symm.trans htext)
  · rw [hplaced, Layout.placeAll_eq] at hsome ⊢
    exact (Layout.reflects_start.after hraw).ends hsome

end Syntax

end QuantumScript
