import QuantumScript.Proofs.Seams.Blocks
import QuantumScript.Proofs.Seams.Restart
import QuantumScript.Proofs.Parsing.Soundness
/-!
# Scripts one after the other

Where a text ends between two lines, the statements of another text may follow. The parse of both texts
first runs beside the parse of the first one up to its end, and then does what the parse of the second
one does from its start. So the tree of both has the parts of the two trees, one after the other.
-/

namespace QuantumScript

namespace Syntax

namespace Production

open Script

/-- One statement of a script, or what is left over from a line indented by mistake. -/
def topLevel : Production :=
  .cond (next .endOfInput) (.answer false) <|
    .cond (.ask (.at [.dedent, .newline])) .advance (.seq (.call .statement) (.answer true))

private theorem file_eq : file = .loop topLevel := rfl

end Production

/-- Reads statements up to the end of the input. -/
def rounds (depth : Nat) (parse : Parse) : Parse :=
  Action.iterate (Production.topLevel.run (Script.runRule grammar depth)) parse

namespace Ready

variable {count : Nat} {token : Token} {tokens : List Token}

theorem closed (h : Ready count (token :: tokens)) (hkind : token.kind = .dedent) :
    Ready 0 tokens := by
  obtain ⟨depth, _, hlaid⟩ := h
  cases hlaid with
  | closed _ hrest => exact ⟨_, Nat.zero_le _, hrest⟩
  | opened hindent _ _ =>
    rw [hkind] at hindent
    cases hindent
  | line hfirst _ _ _ _ => exact absurd (by rw [hkind]; decide) hfirst.2

theorem nextKind (h : Ready count tokens) (hne : tokens ≠ []) :
    Token.nextKind tokens ∉ [TokenKind.newline, .endOfInput] := by
  obtain ⟨token, rest, rfl⟩ := List.exists_cons_of_ne_nil hne
  change token.kind ∉ _
  rcases h.kind with hkind | hkind | hinline
  · rw [hkind]
    decide
  · rw [hkind]
    decide
  · have := hinline.2
    simp only [Token.edges, List.mem_cons, List.not_mem_nil, or_false, not_or] at this ⊢
    exact ⟨this.1, this.2.2.2⟩

end Ready

namespace Script

open Production

variable {surplus : Surplus} {depth : Nat}

/-- As long as tokens of the first text are ahead, a round takes some of them and leaves off at the start
of a line. -/
private theorem passes_round (depth : Nat) (hbegins : surplus.Begins) :
    Passes surplus depth (Unfinished 0) (fun answer tokens => answer = true ∧ Ready 0 tokens)
      topLevel := by
  have hsees : ¬Unfinished 0 [] := fun h => h.2 rfl
  have hkeeps := runRule_keeps grammar depth
  refine passes_at (fun h => absurd h hsees) (Leads.answer ?_) ?_
  · intro tokens h
    have hkind := h.1.1.nextKind h.1.2
    exact absurd (List.mem_cons_of_mem _ h.2) hkind
  · refine passes_at (fun h => absurd h.1 hsees) (Leads.advance ?_ ?_ ?_) ?_
    · exact fun h => absurd h.1.1 hsees
    · intro tokens h hend
      exact absurd (List.mem_singleton.mpr hend) h.1.2
    · intro token tokens h _
      refine ⟨rfl, h.1.1.1.closed ?_⟩
      have hkind := h.1.1.1.nextKind h.1.1.2
      have hmem := h.2
      simp only [List.mem_cons, List.not_mem_nil, or_false, not_or] at hkind hmem
      exact hmem.resolve_right hkind.1
    · refine Leads.seq hkeeps (fun _ => Ready 0)
        ((Leads.call (blocksKept hbegins depth .statement rfl 0)).weaken ?_ fun _ _ => id)
        fun _ => Leads.answer fun _ h => ⟨rfl, h⟩
      intro tokens h
      have hend := h.1.2
      have hleft := h.2
      simp only [List.mem_cons, List.not_mem_nil, or_false, not_or] at hend hleft
      refine ⟨h.1.1.1, ?_⟩
      simp only [List.mem_cons, List.not_mem_nil, or_false, not_or]
      exact ⟨hleft.2, hleft.1, hend⟩

private theorem run_round_end {parse : Parse} (h : Token.significant parse.rest = []) :
    topLevel.run (runRule grammar depth) parse = (false, parse) := by
  have hcurrent : parse.current = .endOfInput := by
    rw [Parse.current_eq, h]
    rfl
  simp [topLevel, next, run_cond, Lookahead.holds, hcurrent, run]

private theorem rounds_seam (hbegins : surplus.Begins) {p q : Parse}
    (hpair : Along surplus true (Ready 0) p q) (hfault : (rounds depth p).fault = false) :
    ∃ seam, rounds depth q = rounds depth seam ∧
      Along surplus true (fun tokens => tokens = []) (rounds depth p) seam := by
  have hkeeps := run_keeps (runRule_keeps grammar depth) topLevel
  have hround := passes_round depth hbegins
  unfold rounds at hfault ⊢
  have hfirst := hkeeps.first hfault
  fun_induction Action.iterate (topLevel.run (runRule grammar depth)) p generalizing q with
  | case1 p next heq hless ih =>
    have hgoes : Token.significant p.rest ≠ [] := by
      intro hend
      rw [run_round_end hend] at heq
      cases heq
    obtain ⟨hanswer, hlater⟩ := hround p q ⟨hpair.toBeside, hpair.mark, hpair.shape, hgoes⟩ hfirst
    cases hother : topLevel.run (runRule grammar depth) q with
    | mk answer later =>
      rw [heq, hother] at hanswer hlater
      obtain rfl : answer = true := hanswer
      have hbefore := hpair.toBeside.remaining
      have hafter : later.remaining = next.remaining + _ := hlater.toBeside.remaining
      obtain ⟨seam, hseam, hend⟩ :=
        ih (hlater.of_imp fun _ h => h.2) hfault (hkeeps.first hfault)
      refine ⟨seam, ?_, hend⟩
      rw [Action.iterate_yes hother (by omega)]
      exact hseam
  | case2 => cases hfault
  | case3 p next heq =>
    by_cases hend : Token.significant p.rest = []
    · rw [run_round_end hend] at heq
      obtain rfl : p = next := (Prod.mk.inj heq).2
      exact ⟨q, rfl, hpair.toBeside, hpair.mark, hend⟩
    · obtain ⟨_, hshape⟩ := hround p q ⟨hpair.toBeside, hpair.mark, hpair.shape, hend⟩ hfirst
      have hanswer := hshape.shape.1
      rw [heq] at hanswer
      cases hanswer

private theorem run_round_statement {parse : Parse}
    (h : parse.current ∉ [TokenKind.endOfInput, .dedent, .newline]) :
    topLevel.run (runRule grammar depth) parse =
      (true, (runRule grammar depth .statement parse).2) := by
  simp only [List.mem_cons, List.not_mem_nil, or_false, not_or] at h
  simp [topLevel, next, run_cond, Lookahead.holds, h, run]

private theorem rounds_flush {parse : Parse}
    (h : parse.current ∉ [TokenKind.endOfInput, .dedent, .newline])
    (hfault : (rounds depth parse).fault = false) :
    rounds depth parse.flush = rounds depth parse := by
  have hkeeps := run_keeps (runRule_keeps grammar depth) topLevel
  have hfirst := hkeeps.first hfault
  rw [run_round_statement h] at hfirst
  apply Action.iterate_congr _ parse.remaining_flush
  rw [run_round_statement h, run_round_statement (by rwa [Parse.current_flush])]
  rw [runRule_flush depth .statement rfl parse hfirst]

private theorem rounds_anew (htail : surplus.tail = []) {p q : Parse} (hpair : Same surplus false p q)
    (hfault : (rounds depth p).fault = false) :
    Same surplus false (rounds depth p) (rounds depth q) := by
  have hkeeps := runRule_keeps grammar depth
  have hmarked := leads_same htail hkeeps (pairs_same htail depth)
  have hround := pairs_of_marks hmarked hkeeps htail (pairs_anew htail depth) file rfl
  exact (hround p q hpair hfault).2

end Script

theorem BeginsLine.head {text : List Char} (h : BeginsLine text) (hne : text ≠ []) :
    ∃ first rest, Token.ofText text = first :: rest ∧ first.Inline ∧ first.kind ∉ clauseWords := by
  obtain ⟨c, cs, rfl⟩ := List.exists_cons_of_ne_nil hne
  obtain ⟨first, rest, hlexemes⟩ : ∃ first rest, Lexeme.ofText (c :: cs) = first :: rest := by
    rw [Lexeme.ofText]
    exact ⟨_, _, rfl⟩
  obtain ⟨hsolid, hkind⟩ := h first (by rw [hlexemes]; rfl)
  have hmem : Token.ofLexeme first ∈ Token.cut (c :: cs) := by
    rw [Token.cut, hlexemes]
    exact List.mem_cons_self
  rw [Token.ofText, Layout.tokens_eq_placeAll, hlexemes, List.map_cons, Layout.placeAll,
    Layout.start, Layout.place_first hsolid]
  exact ⟨_, _, rfl, Token.inline_of_mem_cut hmem hsolid, hkind⟩

namespace Parse

/-- Takes all tokens that are left. -/
def sweep (parse : Parse) : Parse := parse.shiftWhile fun _ => true

private theorem parts_sweep (parse : Parse) :
    parse.sweep.parts =
      (parse.rest.map fun token => Tree.token token.kind token.text).reverse ++ parse.parts := by
  have hall : parse.rest.takeWhile (fun _ => true) = parse.rest := by
    induction parse.rest <;> simp_all
  rw [sweep, shiftWhile_eq, hall]

private theorem flush_of_end {parse : Parse} (h : Token.significant parse.rest = []) :
    parse.flush.rest = [] ∧ parse.flush.parts = parse.sweep.parts := by
  have hrest : parse.rest.dropWhile Token.isTrivia = [] := by
    rw [Token.significant_eq] at h
    cases hrest : parse.rest.dropWhile Token.isTrivia with
    | nil => rfl
    | cons token tokens =>
      rw [hrest] at h
      cases h
  have hall := List.takeWhile_append_dropWhile (p := Token.isTrivia) (l := parse.rest)
  rw [hrest, List.append_nil] at hall
  rw [parts_sweep, flush, shiftWhile_eq]
  exact ⟨hrest, by rw [hall]⟩

end Parse

private theorem along_start {surplus : Surplus} (hbase : surplus.base = [])
    (herrors : surplus.errors = 0) {text : List Char} (h : ClosesLine text) :
    Along surplus true (Ready 0) (.start (Token.ofText text))
      (.start (Token.ofText text ++ surplus.tail)) where
  rest := rfl
  parts := by rw [hbase]; rfl
  errors := by rw [herrors]; rfl
  fault := rfl
  mark := fun _ => by rw [hbase]; rfl
  shape := ⟨0, Nat.le_refl 0, h.laid⟩

private theorem rounds_meet {text tail : List Char} (htext : ClosesLine text) (htail : BeginsLine tail)
    (hne : tail ≠ []) {depth : Nat}
    (hfirst : (rounds depth (.start (Token.ofText text))).fault = false)
    (hboth : (rounds depth (.start (Token.ofText text ++ Token.ofText tail))).fault = false) :
    ∃ meet : Parse,
      rounds depth (.start (Token.ofText text ++ Token.ofText tail)) = rounds depth meet ∧
      meet.rest = Token.ofText tail ∧
      meet.parts = (rounds depth (.start (Token.ofText text))).sweep.parts ∧
      meet.errors.length = (rounds depth (.start (Token.ofText text))).errors.length ∧
      meet.fault = false := by
  obtain ⟨first, rest, hhead, hinline, hkind⟩ := htail.head hne
  have hsolid : ∀ token ∈ (Token.ofText tail).head?, token.isTrivia = false := by
    rw [hhead]
    intro token hmem
    obtain rfl := Option.some.inj hmem
    exact hinline.1
  let surplus : Surplus := ⟨Token.ofText tail, [], 0, hsolid⟩
  have hsignificant : Token.significant surplus.tail = first :: Token.significant rest := by
    change Token.significant (Token.ofText tail) = _
    rw [hhead]
    exact Token.significant_cons_solid hinline.1 rest
  have hedges := hinline.2
  simp only [Token.edges, List.mem_cons, List.not_mem_nil, or_false, not_or] at hedges
  have hbegins : surplus.Begins := by
    rw [Surplus.Begins, hsignificant]
    change first.kind ∉ seamKinds
    simp [seamKinds, hkind, hedges]
  have hstart : Along surplus true (Ready 0) (.start (Token.ofText text))
      (.start (Token.ofText text ++ Token.ofText tail)) := along_start rfl rfl htext
  obtain ⟨seam, hseam, hend⟩ := Script.rounds_seam hbegins hstart hfirst
  have hcurrent : seam.current ∉ [TokenKind.endOfInput, .dedent, .newline] := by
    rw [Parse.current_eq, hend.rest, Token.significant_append, hend.shape, hsignificant]
    change first.kind ∉ _
    simp [hedges]
  rw [hseam] at hboth ⊢
  refine ⟨seam.flush, (Script.rounds_flush hcurrent hboth).symm, ?_, ?_, ?_, ?_⟩
  · rw [hend.flush.rest, (Parse.flush_of_end hend.shape).1]
    rfl
  · rw [hend.flush.parts, (Parse.flush_of_end hend.shape).2]
    exact List.append_nil _
  · rw [Parse.flush, Parse.shiftWhile_eq]
    exact hend.errors
  · rw [Parse.fault_flush, hend.fault]
    exact hfirst

private theorem rounds_on {depth : Nat} {meet : Parse} (hfault : meet.fault = false)
    (hrounds : (rounds depth (.start meet.rest)).fault = false) :
    (rounds depth meet).rest = (rounds depth (.start meet.rest)).rest ∧
      (rounds depth meet).parts = (rounds depth (.start meet.rest)).parts ++ meet.parts ∧
      (rounds depth meet).errors.length =
        (rounds depth (.start meet.rest)).errors.length + meet.errors.length := by
  let surplus : Surplus := ⟨[], meet.parts, meet.errors.length, by simp⟩
  have hstart : Script.Same surplus false (.start meet.rest) meet :=
    { rest := (List.append_nil _).symm
      parts := rfl
      errors := (Nat.zero_add _).symm
      fault := hfault
      mark := fun hmarked => absurd hmarked Bool.false_ne_true
      shape := trivial }
  have hend := Script.rounds_anew rfl hstart hrounds
  exact ⟨hend.rest.trans (List.append_nil _), hend.parts, hend.errors⟩

namespace Tree

/-- The trees right below the root. -/
def children : Tree → List Tree
  | .token _ _ => []
  | .node _ children => children

end Tree

theorem Error.length_ofTokens_append (offset : Nat) (tokens others : List Token) :
    (Error.ofTokens offset (tokens ++ others)).length =
      (Error.ofTokens 0 tokens).length + (Error.ofTokens 0 others).length := by
  have hcount (offset : Nat) (tokens : List Token) :
      (Error.ofTokens offset tokens).length = tokens.countP fun token => token.flaw.isSome := by
    induction tokens generalizing offset with
    | nil => rfl
    | cons token tokens ih =>
      rw [Error.ofTokens, List.length_append, ih, List.countP_cons]
      cases token.flaw <;> simp [Nat.add_comm]
  rw [hcount, hcount, hcount, List.countP_append]

/-- The tree has the parts of a parse that is deep enough, and the errors are those of that parse and the flaws
of the tokens. -/
private theorem parse_rounds (text : List Char) (depth : Nat)
    (h : callDepth * ((Token.ofText text).length + 1) ≤ depth) :
    (rounds depth (.start (Token.ofText text))).fault = false ∧
      (parse text).tree.children =
        (rounds depth (.start (Token.ofText text))).sweep.parts.reverse ∧
      (parse text).errors.length = (rounds depth (.start (Token.ofText text))).errors.length +
        (Error.ofTokens 0 (Token.ofText text)).length := by
  obtain ⟨next, _, hrun, _, hsketch, _⟩ := Script.run_file (Token.ofText text)
  have hdeeper := Script.run_extends (Script.runRule_keeps grammar _)
    (Script.runRule_extends grammar h) Production.file (.start (Token.ofText text))
    (by rw [hrun]; exact hsketch.sound)
  rw [hrun, Production.file_eq] at hdeeper
  have hnext : rounds depth (.start (Token.ofText text)) = next := (Prod.mk.inj hdeeper).2
  have hdone : parseTokens (Token.ofText text) = next.sweep := by
    rw [parseTokens, hrun]
    rfl
  rw [hnext]
  refine ⟨hsketch.sound, ?_, ?_⟩
  · change (parseTokens (Token.ofText text)).parts.reverse = _
    rw [hdone]
  · rw [parse, List.length_mergeSort, List.length_append, List.length_reverse, hdone, Parse.sweep,
      Parse.shiftWhile_eq]

private theorem parse_nil : (parse []).tree.children = [] ∧ (parse []).errors.length = 0 := by
  have htokens : Token.ofText [] = [] := by simp [Token.ofText, Lexeme.ofText, Layout.tokens,
    Layout.finish, Layout.start]
  obtain ⟨_, hchildren, herrors⟩ := parse_rounds [] _ (Nat.le_refl _)
  rw [htokens, rounds, Action.iterate_no (Script.run_round_end rfl)] at hchildren herrors
  rw [Parse.parts_sweep] at hchildren
  exact ⟨hchildren, herrors⟩

theorem children_nil : (parse []).tree.children = [] := parse_nil.1

theorem errors_nil : (parse []).errors = [] := List.length_eq_zero_iff.mp parse_nil.2

private theorem parse_append {text tail : List Char} (htext : ClosesLine text) (htail : BeginsLine tail)
    (hne : tail ≠ []) :
    (parse (text ++ tail)).tree.children = (parse text).tree.children ++ (parse tail).tree.children ∧
      (parse (text ++ tail)).errors.length = (parse text).errors.length + (parse tail).errors.length := by
  have htokens := Token.ofText_append htext htail hne
  have hlength : (Token.ofText (text ++ tail)).length =
      (Token.ofText text).length + (Token.ofText tail).length := by
    rw [htokens, List.length_append]
  let depth := callDepth * ((Token.ofText (text ++ tail)).length + 1)
  obtain ⟨hfirst, htextTree, htextErrors⟩ := parse_rounds text depth (Nat.mul_le_mul_left _ (by omega))
  obtain ⟨hsecond, htailTree, htailErrors⟩ := parse_rounds tail depth (Nat.mul_le_mul_left _ (by omega))
  obtain ⟨hboth, hbothTree, hbothErrors⟩ := parse_rounds (text ++ tail) depth (Nat.le_refl _)
  rw [htokens] at hboth hbothTree hbothErrors
  obtain ⟨meet, hmeet, hrest, hparts, herrors, hfault⟩ := rounds_meet htext htail hne hfirst hboth
  rw [← hrest] at hsecond htailTree
  obtain ⟨hlast, hall, hbooked⟩ := rounds_on hfault hsecond
  constructor
  · rw [htextTree, htailTree, hbothTree, hmeet, Parse.parts_sweep, hlast, hall, hparts]
    rw [← List.append_assoc, ← Parse.parts_sweep, List.reverse_append]
  · rw [hrest] at hbooked
    rw [htextErrors, htailErrors, hbothErrors, hmeet, hbooked, herrors, Error.length_ofTokens_append]
    omega

/-- The tree of two texts that meet between two lines has the parts of the tree of the first one and
then those of the tree of the second one, whatever errors are in them. -/
theorem children_append {text tail : List Char} (htext : ClosesLine text) (htail : BeginsLine tail) :
    (parse (text ++ tail)).tree.children =
      (parse text).tree.children ++ (parse tail).tree.children := by
  by_cases hne : tail = []
  · rw [hne, children_nil, List.append_nil, List.append_nil]
  · exact (parse_append htext htail hne).1

/-- Where two texts meet between two lines, no error comes in and none is lost. -/
theorem length_errors_append {text tail : List Char} (htext : ClosesLine text) (htail : BeginsLine tail) :
    (parse (text ++ tail)).errors.length = (parse text).errors.length + (parse tail).errors.length := by
  by_cases hne : tail = []
  · rw [hne, errors_nil, List.append_nil]
    rfl
  · exact (parse_append htext htail hne).2

end Syntax

end QuantumScript
