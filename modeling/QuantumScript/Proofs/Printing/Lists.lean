import QuantumScript.Proofs.Printing.Levels
/-!
# Lists

Items with commas between them, in a row or between brackets, and the clauses of comprehensions.
-/

namespace QuantumScript

namespace Syntax

open Production

/-- A row ends before the tokens. -/
structure RowStops (place : Place) (rest : List Token) : Prop where
  item : Stops place.rule rest
  comma : Token.nextKind rest ≠ .symbol .comma
  start : expressionFirst.contains (Token.nextKind rest) = false

/-- One item or a row of them is read as one tree. -/
structure Row (place : Place) (print : Print) : Prop where
  tree : ∃ tree, print.trees = [tree] ∧ tree.nodeKind? ≠ some .forClause
  opens : Opens place.rule print.words
  takes : ∀ rest, RowStops place rest → Takes (listOf (.call place.rule)) true print rest
  sound : Sound print.words

/-- The script reads the print as an item, which starts with one of the tokens and is followed by one
of the others. -/
structure Listed (script : Production) (firsts ends : List TokenKind) (print : Print) : Prop where
  starts : firsts.contains (Token.nextKind print.words) = true
  takes : ∀ rest, ends.contains (Token.nextKind rest) = true → Takes script true print rest
  sound : Sound print.words

/-- What follows a comma in a row. -/
def rowRound (item : Production) : Production :=
  .cond (eat (.symbol .comma)) (whenAt expressionFirst (.seq item (.answer true))) (.answer false)

variable {rule : Rule} {script : Production} {kinds firsts ends : List TokenKind}
  {words more rest : List Token} {print first : Print} {prints : List Print}

theorem stops_of_ends (h : ends.contains (Token.nextKind rest) = true)
    (hends : ∀ kind ∈ ends, rule.rank < kind.binding) : Stops rule rest :=
  hends _ (by simpa using h)

theorem not_at_of_ends (h : ends.contains (Token.nextKind rest) = true)
    (hends : ∀ kind ∈ ends, kinds.contains kind = false) :
    kinds.contains (Token.nextKind rest) = false :=
  hends _ (by simpa using h)

namespace Listed

theorem nonempty (h : Listed script firsts ends print) (hend : .endOfInput ∉ firsts) :
    print.words ≠ [] := by
  intro hnil
  have hstarts := h.starts
  rw [hnil, List.contains_iff_mem] at hstarts
  exact hend hstarts

theorem starts_append (h : Listed script firsts ends print) (hend : .endOfInput ∉ firsts)
    (more : List Token) : firsts.contains (Token.nextKind (print.words ++ more)) = true := by
  rw [Token.nextKind_append (h.nonempty hend)]
  exact h.starts

theorem not_at (h : Listed script firsts ends print) (hend : .endOfInput ∉ firsts)
    (hkinds : ∀ kind ∈ kinds, kind ∉ firsts) (more : List Token) :
    kinds.contains (Token.nextKind (print.words ++ more)) = false := by
  have hstarts := h.starts_append hend more
  rw [List.contains_eq_mem, decide_eq_false_iff_not]
  intro hmem
  exact hkinds _ hmem (by simpa using hstarts)

end Listed

namespace Print

private theorem nextKind_others (prints : List Print) (rest : List Token) :
    Token.nextKind ((others prints).words ++ rest) = Token.nextKind rest ∨
      Token.nextKind ((others prints).words ++ rest) = .symbol .comma := by
  cases prints with
  | nil => exact Or.inl rfl
  | cons print prints => exact Or.inr rfl

private theorem sound_others (h : ∀ print ∈ prints, Sound print.words) : Sound (others prints).words := by
  induction prints with
  | nil => exact Sound.nil
  | cons print prints ih =>
    have hothers := ih fun other hmem => h other (by simp [hmem])
    exact Sound.mark rfl rfl ((h print (by simp)).append hothers)

theorem sound_items (h : ∀ print ∈ prints, Sound print.words) : Sound (items prints).words := by
  cases prints with
  | nil => exact Sound.nil
  | cons print prints =>
    exact (h print (by simp)).append (sound_others fun other hmem => h other (by simp [hmem]))

/-- None of the trees is the clause that makes a comprehension. -/
def Clauseless (print : Print) : Prop := ∀ tree ∈ print.trees, tree.nodeKind? ≠ some .forClause

theorem Clauseless.append {second : Print} (hfirst : first.Clauseless) (hsecond : second.Clauseless) :
    (first ++ second).Clauseless := by
  intro tree hmem
  rcases List.mem_append.mp hmem with hmem | hmem
  · exact hfirst tree hmem
  · exact hsecond tree hmem

theorem clauseless_leaf (token : Token) : (leaf token).Clauseless := by
  intro tree hmem
  obtain rfl := List.mem_singleton.mp hmem
  exact nofun

private theorem clauseless_others (h : ∀ print ∈ prints, print.Clauseless) :
    (others prints).Clauseless := by
  induction prints with
  | nil => exact nofun
  | cons print prints ih =>
    have hothers := ih fun other hmem => h other (by simp [hmem])
    exact (clauseless_leaf _).append ((h print (by simp)).append hothers)

theorem clauseless_items (h : ∀ print ∈ prints, print.Clauseless) :
    (items prints).Clauseless := by
  cases prints with
  | nil => exact nofun
  | cons print prints =>
    exact (h print (by simp)).append
      (clauseless_others fun other hmem => h other (by simp [hmem]))

end Print

theorem RowStops.of_stops (h : Stops .expressionList rest) : RowStops .element rest := by
  refine ⟨h.mono (by decide), ?_, h.not_at (by decide)⟩
  have hcomma : [TokenKind.symbol .comma].contains (Token.nextKind rest) = false :=
    h.not_at (by decide)
  simpa using hcomma

namespace Place

variable {place : Place}

theorem rank_lt (place : Place) : place.rule.rank < 16 := by
  cases place <;> decide

private theorem first_rule (place : Place) : ∀ kind ∈ place.rule.first, kind ∈ expressionFirst := by
  cases place <;> decide

private theorem stops_others (hrest : Stops place.rule rest) (prints : List Print) :
    Stops place.rule ((Print.others prints).words ++ rest) := by
  rcases Print.nextKind_others prints rest with heq | heq
  · rw [Stops, heq]
    exact hrest
  · rw [Stops, heq]
    exact place.rank_lt

/-- The items after the first one. The induction is on the items. -/
private theorem takes_others (h : ∀ print ∈ prints, Fits place.rule print) (hrest : RowStops place rest) :
    Takes (.loop (rowRound (.call place.rule))) true (Print.others prints) rest := by
  induction prints with
  | nil => exact Turns.loop_no (Turns.eat_no hrest.comma (Takes.answered false))
  | cons print prints ih =>
    have hprint := h print (by simp)
    have hothers := ih fun other hmem => h other (by simp [hmem])
    have hitem := hprint.takes _ (stops_others hrest.item prints)
    have hround : Takes (rowRound (.call place.rule)) true (Print.mark .comma ++ print)
        ((Print.others prints).words ++ rest) := by
      refine Takes.eat_yes rfl (Turns.at_yes ?_ (Takes.seq_answer hitem))
      exact hprint.opens.starts place.first_rule _
    rw [Print.others, ← Print.append_assoc]
    exact Takes.loop_yes hround (List.cons_ne_nil _ _) hothers

private theorem takes_comma (hrest : RowStops place rest) :
    Takes (.loop (rowRound (.call place.rule))) true (Print.mark .comma) rest := by
  have hnone : Takes (whenAt expressionFirst (.seq (.call place.rule) (.answer true))) false .empty
      rest := takes_whenAt_none hrest.start
  have hround : Takes (rowRound (.call place.rule)) false (Print.mark .comma ++ .empty) rest :=
    Takes.eat_yes rfl hnone
  rw [Print.append_empty] at hround
  exact Turns.loop_no hround

private theorem takes_row {tail : Print} (hfirst : Fits place.rule first)
    (hnext : Token.nextKind (tail.words ++ rest) = .symbol .comma)
    (htail : Takes (.loop (rowRound (.call place.rule))) true tail rest) :
    Takes (listOf (.call place.rule)) true ((first ++ tail).node .expressionList) rest := by
  obtain ⟨tree, htree, _⟩ := hfirst.tree
  have hstops : Stops place.rule (tail.words ++ rest) := by
    rw [Stops, hnext]
    exact place.rank_lt
  refine Turns.cond_yes (hfirst.takes _ hstops) (Turns.at_yes ?_ (Takes.wrap ⟨tree, htree⟩ htail))
  simp [hnext]

theorem row_one (h : Fits place.rule print) : Row place print :=
  ⟨h.tree, h.opens, fun rest hrest => takes_listOf_one (h.takes rest hrest.item) hrest.comma,
    h.sound⟩

theorem row_single (h : Fits place.rule first) :
    Row place ((first ++ .mark .comma).node .expressionList) := by
  refine ⟨⟨_, rfl, nofun⟩, h.opens.append nofun, ?_, h.sound.append (Sound.mark rfl rfl Sound.nil)⟩
  intro rest hrest
  exact takes_row h rfl (takes_comma hrest)

theorem row_several (h : Fits place.rule first) (hnonempty : prints ≠ [])
    (hprints : ∀ print ∈ prints, Fits place.rule print) :
    Row place ((first ++ Print.others prints).node .expressionList) := by
  have hnext (rest : List Token) :
      Token.nextKind ((Print.others prints).words ++ rest) = .symbol .comma := by
    cases prints with
    | nil => exact absurd rfl hnonempty
    | cons print prints => rfl
  have hsound := Print.sound_others fun print hmem => (hprints print hmem).sound
  refine ⟨⟨_, rfl, nofun⟩, h.opens.append ?_, ?_, h.sound.append hsound⟩
  · rw [← List.append_nil (Print.others prints).words, hnext]
    exact nofun
  · intro rest hrest
    exact takes_row h (hnext rest) (takes_others hprints hrest)

end Place

/-- A loop whose rounds read an item with the comma after it, but for the last item, which may have something
else after it. The induction is on the items after the first one. -/
theorem takes_separated_tail {round : Production} {tail : Print} (hnonempty : prints ≠ [])
    (hlast : ∀ print ∈ prints, Takes round false (print ++ tail) rest)
    (hmore : ∀ print ∈ prints, ∀ next ∈ prints, ∀ more,
      Takes round true (print ++ .mark .comma) (next.words ++ more)) :
    Takes (.loop round) true (Print.items prints ++ tail) rest := by
  cases prints with
  | nil => exact absurd rfl hnonempty
  | cons print prints =>
    induction prints generalizing print with
    | nil =>
      change Takes _ true (print ++ .empty ++ tail) rest
      rw [Print.append_empty]
      exact Turns.loop_no (hlast print (by simp))
    | cons second prints ih =>
      have hitems := ih second nofun (fun other hmem => hlast other (by simp [List.mem_cons.mp hmem]))
        fun other hmem next hnext =>
          hmore other (by simp [List.mem_cons.mp hmem]) next (by simp [List.mem_cons.mp hnext])
      have hround := hmore print (by simp) second (by simp)
        ((Print.others prints).words ++ (tail.words ++ rest))
      rw [← List.append_assoc, ← List.append_assoc] at hround
      have heq : Print.items (print :: second :: prints) ++ tail =
          (print ++ .mark .comma) ++ (Print.items (second :: prints) ++ tail) := by
        rw [← Print.append_assoc, Print.append_assoc print]
        rfl
      rw [heq]
      exact Takes.loop_yes hround (by simp [Print.mark, Print.leaf]) hitems

/-- A loop whose rounds read an item with the comma after it, but for the last item. -/
theorem takes_separated {round : Production} (hnone : prints = [] → Takes round false .empty rest)
    (hlast : ∀ print ∈ prints, Takes round false print rest)
    (hmore : ∀ print ∈ prints, ∀ next ∈ prints, ∀ more,
      Takes round true (print ++ .mark .comma) (next.words ++ more)) :
    Takes (.loop round) true (Print.items prints) rest := by
  by_cases hnonempty : prints = []
  · obtain rfl := hnonempty
    exact Turns.loop_no (hnone rfl)
  · rw [← Print.append_empty (Print.items prints)]
    refine takes_separated_tail hnonempty (fun print hmem => ?_) hmore
    rw [Print.append_empty]
    exact hlast print hmem

/-- One round over the items between brackets. -/
def bracketRound (bracket : Bracket) (first : List TokenKind) (item : Production) : Production :=
  .cond (.ask (.at [.symbol bracket.closing, .endOfInput])) (.answer false) <|
    .cond item
      (.cond (next (.symbol .comma)) (.bump (.symbol .comma)) <|
        whenAt first (.seq (.report (.missingSeparator (.symbol .comma))) (.answer true)))
      (.answer false)

section Brackets

variable {bracket : Bracket}

private theorem takes_items (hstart : ∀ kind ∈ [.symbol bracket.closing, .endOfInput], kind ∉ firsts)
    (hnone : kinds.contains (.symbol bracket.closing) = false)
    (h : ∀ print ∈ prints, Listed script firsts [.symbol .comma, .symbol bracket.closing] print)
    (hrest : Token.nextKind rest = .symbol bracket.closing) :
    Takes (.loop (bracketRound bracket kinds script)) true (Print.items prints) rest := by
  have hend : .endOfInput ∉ firsts := hstart _ (by simp)
  refine takes_separated ?_ ?_ ?_
  · intro _
    exact Turns.at_yes (by simp [hrest]) (Takes.answered false)
  · intro print hmem
    have hitem := (h print hmem).takes rest (by simp [hrest])
    have hcomma : [TokenKind.symbol .comma].contains (Token.nextKind rest) = false := by
      rw [hrest]
      cases bracket <;> rfl
    rw [← hrest] at hnone
    refine Turns.at_no ((h print hmem).not_at hend hstart rest) (Takes.cond_still hitem ?_)
    exact Turns.at_no hcomma (takes_whenAt_none hnone)
  · intro print hmem next _ more
    have hitem := (h print hmem).takes (Token.mark .comma :: (next.words ++ more)) (by rfl)
    have hnext := (h print hmem).not_at hend hstart (Token.mark .comma :: (next.words ++ more))
    refine Turns.at_no ?_ (Takes.cond_yes hitem (Turns.at_yes rfl (takes_mark .comma _)))
    rw [Print.words_append, List.append_assoc]
    exact hnext

theorem takes_bracketed (hstart : ∀ kind ∈ [.symbol bracket.closing, .endOfInput], kind ∉ firsts)
    (hnone : kinds.contains (.symbol bracket.closing) = false)
    (h : ∀ print ∈ prints, Listed script firsts [.symbol .comma, .symbol bracket.closing] print)
    (rest : List Token) :
    Takes (bracketed (.symbol bracket.opening) (.symbol bracket.closing) kinds script) true
      (Print.between bracket (Print.items prints)) rest := by
  have hitems : Takes (.loop (bracketRound bracket kinds script)) true (Print.items prints)
      (Token.mark bracket.closing :: rest) := takes_items hstart hnone h rfl
  exact Takes.seq (Takes.bump rfl) (Takes.seq hitems (takes_expect rfl))

end Brackets

/-- One clause of a comprehension. -/
def clauseRound : Production :=
  .cond (next (.keyword .forWord))
    (.node (.always .forClause) <| steps
      [ .bump (.keyword .forWord),
        .call .targetList,
        expect (.keyword .inWord),
        .call .disjunction ]) <|
  whenAt [.keyword .ifWord] <|
    .node (.always .ifClause) (.seq (.bump (.keyword .ifWord)) (.call .disjunction))

/-- The clauses of a comprehension end before the tokens. -/
structure ClausesStop (rest : List Token) : Prop where
  expression : Stops .expression rest
  clause : Token.nextKind rest ≠ .keyword .forWord

/-- Clauses of a comprehension after the first one. -/
structure Clauses (print : Print) : Prop where
  follows : ∀ rest, ClausesStop rest → Stops .disjunction (print.words ++ rest)
  takes : ∀ rest, ClausesStop rest → Takes (.loop clauseRound) true print rest
  sound : Sound print.words

/-- Clauses of a comprehension. -/
structure Comprehension (print : Print) : Prop where
  begins : ∀ rest, Token.nextKind (print.words ++ rest) = .keyword .forWord
  clause : ∃ tree ∈ print.trees, tree.nodeKind? = some .forClause
  takes : ∀ rest, ClausesStop rest → Takes (.call .clauses) true print rest
  sound : Sound print.words

section Clauses

variable {targets iterable condition clauses : Print}

theorem takes_noClauses (h : Token.nextKind rest ≠ .keyword .forWord) :
    Takes (.call .clauses) false .empty rest :=
  Turns.call (takes_whenAt_none (by simpa using h))

theorem clauses_empty : Clauses .empty := by
  refine ⟨fun rest hrest => hrest.expression.mono (by decide), ?_, Sound.nil⟩
  intro rest hrest
  refine Turns.loop_no (Turns.at_no ?_ (takes_whenAt_none (hrest.expression.not_at (by decide))))
  simpa using hrest.clause

private theorem takes_for (htargets : Row .target targets) (hiterable : Fits .disjunction iterable)
    (hrest : Stops .disjunction rest) :
    Takes clauseRound true ((Print.word .forWord ++ (targets ++
      (Print.word .inWord ++ iterable))).node .forClause) rest := by
  have hin : RowStops .target ((Print.word .inWord ++ iterable).words ++ rest) :=
    ⟨Stops.of_next (.keyword .inWord) rfl (by decide), nofun, rfl⟩
  have hlist : Takes (.call .targetList) true targets _ := Turns.call (htargets.takes _ hin)
  have hrow := Takes.seq hlist (Takes.seq (takes_expect rfl) (hiterable.takes rest hrest))
  exact Turns.at_yes rfl (Takes.node (Takes.seq (Takes.bump rfl) hrow))

private theorem sound_for (htargets : Row .target targets) (hiterable : Fits .disjunction iterable) :
    Sound (Print.word .forWord ++ (targets ++ (Print.word .inWord ++ iterable))).words :=
  Sound.word .forWord (htargets.sound.append (Sound.word .inWord hiterable.sound))

theorem clauses_each (htargets : Row .target targets) (hiterable : Fits .disjunction iterable)
    (hclauses : Clauses clauses) :
    Clauses ((Print.word .forWord ++ (targets ++ (Print.word .inWord ++ iterable))).node
      .forClause ++ clauses) := by
  have hsound := (sound_for htargets hiterable).append hclauses.sound
  refine ⟨fun rest _ => Stops.of_next (.keyword .forWord) rfl (by decide), ?_, hsound⟩
  intro rest hrest
  have hfor := takes_for htargets hiterable (hclauses.follows rest hrest)
  exact Takes.loop_yes hfor (List.cons_ne_nil _ _) (hclauses.takes rest hrest)

theorem clauses_filter (hcondition : Fits .disjunction condition) (hclauses : Clauses clauses) :
    Clauses ((Print.word .ifWord ++ condition).node .ifClause ++ clauses) := by
  have hsound := Sound.word .ifWord hcondition.sound
  have hall := hsound.append hclauses.sound
  refine ⟨fun rest _ => Stops.of_next (.keyword .ifWord) rfl (by decide), ?_, hall⟩
  intro rest hrest
  have hif : Takes clauseRound true ((Print.word .ifWord ++ condition).node .ifClause)
      (clauses.words ++ rest) := by
    have htest := hcondition.takes _ (hclauses.follows rest hrest)
    exact Turns.at_no rfl (Turns.at_yes rfl (Takes.node (Takes.seq (Takes.bump rfl) htest)))
  exact Takes.loop_yes hif (List.cons_ne_nil _ _) (hclauses.takes rest hrest)

theorem comprehension_of (htargets : Row .target targets) (hiterable : Fits .disjunction iterable)
    (hclauses : Clauses clauses) :
    Comprehension ((Print.word .forWord ++ (targets ++ (Print.word .inWord ++ iterable))).node
      .forClause ++ clauses) := by
  have hall := clauses_each htargets hiterable hclauses
  refine ⟨fun _ => rfl, ⟨_, List.mem_cons_self, rfl⟩, ?_, hall.sound⟩
  intro rest hrest
  exact Turns.call (Turns.at_yes rfl (hall.takes rest hrest))

end Clauses

end Syntax

end QuantumScript
