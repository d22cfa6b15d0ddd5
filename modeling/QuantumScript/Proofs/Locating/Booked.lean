import QuantumScript.Proofs.Locating.Columns
import QuantumScript.Proofs.Parsing.Invariants
import QuantumScript.Source
/-!
# Spans of booked errors

A parse stands between two tokens of its source. So an error that is booked at the next token has a span
that can be cut out of the source, even at the end of the input, and every step keeps it so.
-/

namespace QuantumScript

namespace Syntax

open Text (Boundary byteLength)

/-- The span of the error can be cut out of the text. -/
def Error.Inside (text : List Char) (error : Error) : Prop :=
  (Text.slice? error.span.start error.span.stop text).isSome = true

namespace Parse

/-- The tokens ahead are the text from the offset on, and all errors are inside the text. -/
structure Grounded (text : List Char) (parse : Parse) : Prop where
  ahead : ∃ front, text = front ++ parse.rest.flatMap Token.text ∧ byteLength front = parse.offset
  inside : ∀ error ∈ parse.errors, error.Inside text

namespace Grounded

variable {text : List Char} {parse : Parse}

theorem start (tokens : List Token) : Grounded (tokens.flatMap Token.text) (.start tokens) :=
  ⟨⟨[], rfl, rfl⟩, nofun⟩

private theorem slice_here (h : Grounded text parse) :
    Text.slice? parse.here.start parse.here.stop text = some parse.currentText := by
  obtain ⟨front, htext, hoffset⟩ := h.ahead
  have hrest : text = front ++ (parse.rest.takeWhile Token.isTrivia).flatMap Token.text ++
      parse.ahead.flatMap Token.text := by
    rw [Parse.ahead, List.append_assoc, ← List.flatMap_append, List.takeWhile_append_dropWhile]
    exact htext
  obtain ⟨after, hafter⟩ : ∃ after, parse.ahead.flatMap Token.text = parse.currentText ++ after := by
    unfold currentText
    cases parse.ahead with
    | nil => exact ⟨[], rfl⟩
    | cons token tokens => exact ⟨tokens.flatMap Token.text, rfl⟩
  rw [hrest, hafter]
  dsimp only [here]
  rw [← hoffset, ← Text.byteLength_append]
  exact Text.slice?_append _ _ _

theorem shift (h : Grounded text parse) : Grounded text parse.shift := by
  obtain ⟨front, htext, hoffset⟩ := h.ahead
  unfold Parse.shift
  split
  · exact h
  · rename_i token rest hrest
    refine ⟨⟨front ++ token.text, ?_, ?_⟩, h.inside⟩
    · rw [htext, hrest, List.flatMap_cons, List.append_assoc]
    · rw [Text.byteLength_append, hoffset]

theorem book (h : Grounded text parse) (problem : Problem) : Grounded text (parse.book problem) := by
  refine ⟨h.ahead, List.forall_mem_cons.mpr ⟨?_, h.inside⟩⟩
  rw [Error.Inside, h.slice_here]
  rfl

theorem invariant (text : List Char) : Invariant (Grounded text) where
  fail h := ⟨h.ahead, h.inside⟩
  shift := shift
  book problem h := h.book problem
  close label checkpoint h := by
    unfold Parse.close
    split <;> exact ⟨h.ahead, h.inside⟩

end Grounded

end Parse

private theorem grounded_parseTokens (tokens : List Token) :
    (parseTokens tokens).Grounded (tokens.flatMap Token.text) :=
  (Parse.Grounded.invariant _).parseTokens (.start tokens)

private theorem Error.inside_ofTokens (before : List Char) (tokens : List Token) :
    ∀ error ∈ Error.ofTokens (byteLength before) tokens,
      error.Inside (before ++ tokens.flatMap Token.text) := by
  induction tokens generalizing before with
  | nil => exact List.forall_mem_nil _
  | cons token tokens ih =>
    rw [ofTokens, List.flatMap_cons]
    refine List.forall_mem_append.mpr ⟨?_, ?_⟩
    · intro error hmem
      obtain ⟨flaw, _, rfl⟩ := List.mem_map.mp hmem
      rw [Inside, Text.slice?_append]
      rfl
    · rw [← Text.byteLength_append, ← List.append_assoc]
      exact ih _

/-- Every syntax error has a span that can be cut out of the source. -/
theorem inside_of_mem_errors {text : List Char} {error : Error} (h : error ∈ (parse text).errors) :
    error.Inside text := by
  have htext := Token.flatMap_text_ofText text
  rw [parse, List.mem_mergeSort, List.mem_append, List.mem_reverse] at h
  rcases h with hbooked | hflaw
  · have hgrounded := grounded_parseTokens (Token.ofText text)
    rw [htext] at hgrounded
    exact hgrounded.inside error hbooked
  · have hinside := Error.inside_ofTokens [] (Token.ofText text) error hflaw
    rwa [List.nil_append, htext] at hinside

end Syntax

/-- Every syntax error is shown where it stands. -/
theorem Source.shows_of_mem_diagnostics {path : Option String} {text : List Char}
    {diagnostic : Diagnostic} (h : diagnostic ∈ (Source.ofText path text).diagnostics) :
    Text.Shows text diagnostic.span diagnostic.position ∧
      ∃ message, diagnostic.cause = .syntactic message := by
  obtain ⟨error, hmem, rfl⟩ := List.mem_map.mp h
  exact ⟨Diagnostic.shows_syntacticPosition (Syntax.inside_of_mem_errors hmem), _, rfl⟩

end QuantumScript
