import QuantumScript.Proofs.Parsing.Sketch
/-!
# Steps on sketches

Every step of a parse has its counterpart on the sketch of the parse. The parts that stood there when
the innermost open node began are the base; a sketch shows only what has come after it.
-/

namespace QuantumScript

namespace Syntax

/-- The tokens that the grammar sees. -/
def Token.significant (tokens : List Token) : List Token :=
  tokens.filter fun token => !token.isTrivia

theorem Token.significant_append (tokens others : List Token) :
    significant (tokens ++ others) = significant tokens ++ significant others :=
  List.filter_append ..

theorem Token.significant_cons_solid {token : Token} (h : token.kind.isTrivia = false)
    (tokens : List Token) : significant (token :: tokens) = token :: significant tokens := by
  rw [significant, List.filter_cons_of_pos (by simp [isTrivia, h])]
  rfl

theorem Token.significant_cons_trivia {token : Token} (h : token.kind.isTrivia = true)
    (tokens : List Token) : significant (token :: tokens) = significant tokens := by
  rw [significant, List.filter_cons_of_neg (by simp [isTrivia, h])]
  rfl

theorem Token.significant_eq (tokens : List Token) :
    significant tokens =
      match tokens.dropWhile isTrivia with
      | [] => []
      | token :: rest => token :: significant rest := by
  induction tokens with
  | nil => rfl
  | cons token tokens ih =>
    cases h : token.isTrivia with
    | true => simpa [significant, h] using ih
    | false => simp [significant, h]

theorem Token.significant_dropWhile (tokens : List Token) :
    significant (tokens.dropWhile isTrivia) = significant tokens := by
  induction tokens with
  | nil => rfl
  | cons token tokens ih =>
    cases h : token.isTrivia with
    | true => simpa [significant, h] using ih
    | false => simp [h]

theorem Parse.close_eq (label : List Tree → NodeKind) {parse : Parse} {top below : List Tree}
    (h : parse.parts = top ++ below) :
    parse.close label below.length =
      { parse with
        parts := .node (label top.reverse) top.reverse :: below
        mark := below.length } := by
  have hcount : parse.parts.length - below.length = top.length := by simp [h]
  rw [close, if_pos (by simp [h])]
  dsimp only
  rw [hcount, h, List.take_left, List.drop_left]

/-- The sketch shows the parse above the base, and no step of a sound grammar was missed. -/
structure Sketched (base : List Tree) (parse : Parse) (sketch : Sketch) : Prop where
  rest : Token.significant parse.rest = sketch.rest
  parts : ∃ top, parse.parts = top ++ base ∧ Tree.bareAll top = sketch.parts
  problems : parse.errors.map Error.problem = sketch.problems
  sound : parse.fault = false

namespace Sketched

variable {base : List Tree} {parse : Parse} {sketch : Sketch}

private theorem rest_eq (h : Sketched base parse sketch) :
    sketch.rest =
      match parse.ahead with
      | [] => []
      | token :: rest => token :: Token.significant rest := by
  rw [← h.rest, Token.significant_eq]
  rfl

theorem current (h : Sketched base parse sketch) : sketch.current = parse.current := by
  unfold Sketch.current Parse.current
  rw [h.rest_eq]
  cases parse.ahead <;> rfl

theorem currentText (h : Sketched base parse sketch) :
    sketch.currentText = parse.currentText := by
  unfold Sketch.currentText Parse.currentText
  rw [h.rest_eq]
  cases parse.ahead <;> rfl

theorem second (h : Sketched base parse sketch) : sketch.second = parse.second := by
  unfold Sketch.second Parse.second
  rw [h.rest_eq]
  cases parse.ahead with
  | nil => rfl
  | cons token tokens =>
    dsimp only
    rw [Token.significant_eq]
    cases tokens.dropWhile Token.isTrivia <;> rfl

theorem holds (h : Sketched base parse sketch) (question : Lookahead) :
    sketch.holds question = question.holds parse := by
  cases question <;> simp only [Sketch.holds, Lookahead.holds, h.current, h.second]

theorem remaining (h : Sketched base parse sketch) : parse.remaining = sketch.rest.length := by
  rw [← h.rest, Parse.remaining, Token.significant, List.countP_eq_length_filter]

theorem errors_length (h : Sketched base parse sketch) :
    parse.errors.length = sketch.problems.length := by
  rw [← h.problems, List.length_map]

theorem book (problem : Problem) (h : Sketched base parse sketch) :
    Sketched base (parse.book problem) (sketch.book problem) := by
  refine ⟨h.rest, h.parts, ?_, h.sound⟩
  simp [Parse.book, Sketch.book, h.problems]

theorem bareAll_trivia (tokens : List Token) (h : ∀ token ∈ tokens, token.isTrivia) :
    Tree.bareAll (tokens.map Token.leaf) = [] := by
  induction tokens with
  | nil => rfl
  | cons token tokens ih =>
    have htoken : token.leaf.isTrivia = true := h token (by simp)
    rw [List.map_cons, Tree.bareAll, if_pos htoken]
    exact ih fun other hmem => h other (by simp [hmem])

private theorem parts_flush (parse : Parse) :
    ∃ blanks, parse.flush.parts = blanks ++ parse.parts ∧ Tree.bareAll blanks = [] := by
  refine ⟨((parse.rest.takeWhile Token.isTrivia).map Token.leaf).reverse, ?_, ?_⟩
  · rw [Parse.flush, Parse.shiftWhile_eq]
    rfl
  · rw [Tree.bareAll_reverse, bareAll_trivia, List.reverse_nil]
    intro token hmem
    exact List.all_eq_true.mp List.all_takeWhile token hmem

/-- Blanks are taken unseen. -/
theorem flush (h : Sketched base parse sketch) : Sketched base parse.flush sketch := by
  obtain ⟨blanks, hblanks, hbare⟩ := parts_flush parse
  obtain ⟨top, htop, hparts⟩ := h.parts
  refine ⟨?_, ⟨blanks ++ top, ?_, ?_⟩, ?_, ?_⟩
  · rw [Parse.flush, Parse.shiftWhile_eq, ← h.rest]
    exact Token.significant_dropWhile parse.rest
  · rw [hblanks, htop, List.append_assoc]
  · rw [Tree.bareAll_append, hbare, hparts, List.nil_append]
  · rw [Parse.flush, Parse.shiftWhile_eq]
    exact h.problems
  · rw [Parse.flush, Parse.shiftWhile_eq]
    exact h.sound

/-- A node that begins now is made above all that is there. -/
theorem enter (h : Sketched base parse sketch) :
    Sketched parse.flush.parts parse.flush { sketch with parts := [] } :=
  ⟨h.flush.rest, ⟨[], rfl, rfl⟩, h.flush.problems, h.flush.sound⟩

private theorem rest_flush (parse : Parse) : parse.flush.rest = parse.ahead := by
  rw [Parse.flush, Parse.shiftWhile_eq]
  rfl

theorem take (h : Sketched base parse sketch) (hend : sketch.current ≠ .endOfInput) :
    Sketched base parse.take sketch.take := by
  rw [h.current] at hend
  rw [Parse.take, if_neg hend]
  obtain ⟨top, htop, hparts⟩ := h.flush.parts
  have hrest := h.rest_eq
  have hahead := rest_flush parse
  unfold Parse.current at hend
  cases heq : parse.ahead with
  | nil => simp [heq] at hend
  | cons token tokens =>
    rw [heq] at hrest hahead
    have htoken : token.leaf.isTrivia = false := by
      have := List.head?_dropWhile_not Token.isTrivia parse.rest
      rw [Parse.ahead] at heq
      rw [heq] at this
      exact this
    have hshift : parse.flush.shift =
        { parse.flush with
          rest := tokens
          offset := parse.flush.offset + Text.byteLength token.text
          parts := token.leaf :: parse.flush.parts } := by
      rw [Parse.shift, hahead]
      rfl
    rw [hshift, Sketch.take, hrest]
    refine ⟨rfl, ⟨token.leaf :: top, ?_, ?_⟩, h.flush.problems, h.flush.sound⟩
    · rw [htop, List.cons_append]
    · rw [Tree.bareAll, htoken, hparts]
      rfl

private theorem current_of_ends {sketch : Sketch}
    (h : ¬Parse.statementEnds.contains sketch.current) : sketch.current ≠ .endOfInput := by
  intro hend
  rw [hend] at h
  exact h (by decide)

private theorem take_of_goesOn {sketch : Sketch}
    (h : ¬Parse.statementEnds.contains sketch.current) :
    sketch.take.rest.length < sketch.rest.length ∧ sketch.take.skip = sketch.skip := by
  obtain ⟨rest, parts, problems⟩ := sketch
  cases rest with
  | nil => exact absurd rfl h
  | cons token tokens =>
    have hgoes : Sketch.goesOn token = true := by simpa [Sketch.goesOn, Sketch.current] using h
    simp [Sketch.take, Sketch.skip, hgoes]

theorem skip (h : Sketched base parse sketch) : Sketched base parse.skip sketch.skip := by
  induction hn : sketch.rest.length using Nat.strongRecOn generalizing parse sketch with
  | ind n ih =>
    rw [Parse.skip, ← h.current]
    split
    · rename_i hends
      have hstay : sketch.skip = sketch := by
        obtain ⟨rest, parts, problems⟩ := sketch
        cases rest with
        | nil => rfl
        | cons token tokens =>
          have hgoes : Sketch.goesOn token = false := by
            simpa [Sketch.goesOn, Sketch.current] using hends
          simp [Sketch.skip, hgoes]
      rw [hstay]
      exact h
    · rename_i hends
      have htake := take_of_goesOn hends
      rw [← htake.2]
      exact ih _ (hn ▸ htake.1) (h.take (current_of_ends hends)) rfl

theorem finishStatement (booked : Nat) (h : Sketched base parse sketch) :
    Sketched base (parse.finishStatement booked) (sketch.finishStatement booked) := by
  rw [Parse.finishStatement, Sketch.finishStatement, h.current, h.errors_length, h.currentText]
  split
  · exact h
  · split
    · exact (h.book _).skip
    · exact h.skip

/-- A node is made of all that has come above the parts below it. -/
theorem close {below : List Tree} {parts : List Tree} (label : List Tree → NodeKind)
    (hlabel : ∀ trees, label (Tree.bareAll trees) = label trees)
    (hbelow : ∃ top, below = top ++ base ∧ Tree.bareAll top = parts)
    (h : Sketched below parse sketch) :
    Sketched base (parse.close label below.length)
      { sketch with
        parts := .node (label sketch.parts.reverse) sketch.parts.reverse :: parts } := by
  obtain ⟨top, htop, hparts⟩ := h.parts
  obtain ⟨above, habove, hbare⟩ := hbelow
  have hbody : Tree.bareAll top.reverse = sketch.parts.reverse := by
    rw [Tree.bareAll_reverse, hparts]
  rw [Parse.close_eq label htop]
  refine ⟨h.rest, ⟨.node (label top.reverse) top.reverse :: above, ?_, ?_⟩, h.problems, h.sound⟩
  · rw [habove, List.cons_append]
  · rw [Tree.bareAll, if_neg (by simp [Tree.isTrivia]), Tree.bare, hbody, hbare, ← hlabel, hbody]

end Sketched

end Syntax

end QuantumScript
