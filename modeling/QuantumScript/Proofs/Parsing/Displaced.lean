import Mathlib.Data.List.TakeWhile
import QuantumScript.Proofs.Parsing.Simulation
import QuantumScript.Proofs.Printing.Texts
/-!
# Displaced parses

The grammar sees the significant tokens of a text and not the blanks and comments between them. Texts with
the same significant tokens have the same bare tree, and the errors of one are those of the other at the
places where its tokens stand.
-/

namespace QuantumScript

namespace Syntax

open Text

namespace Token

/-- Span of the significant token with a number, or of the end if there are fewer of them. -/
def spanAt (offset : Nat) : List Token → Nat → Span
  | [], _ => .empty offset
  | token :: tokens, number =>
    let stop := offset + byteLength token.text
    if token.isTrivia then spanAt stop tokens number
    else
      match number with
      | 0 => ⟨offset, stop⟩
      | number + 1 => spanAt stop tokens number

section SpanAt

variable {offset : Nat} {token : Token} {tokens : List Token}

theorem spanAt_trivia (h : token.isTrivia = true) (number : Nat) :
    spanAt offset (token :: tokens) number = spanAt (offset + byteLength token.text) tokens number := by
  conv => lhs; unfold spanAt
  exact if_pos h

theorem spanAt_zero (h : token.isTrivia = false) :
    spanAt offset (token :: tokens) 0 = ⟨offset, offset + byteLength token.text⟩ := by
  rw [spanAt, h, if_neg Bool.false_ne_true]

theorem spanAt_succ (h : token.isTrivia = false) (number : Nat) :
    spanAt offset (token :: tokens) (number + 1) =
      spanAt (offset + byteLength token.text) tokens number := by
  rw [spanAt, h, if_neg Bool.false_ne_true]

private theorem spanAt_dropWhile (number : Nat) :
    spanAt (offset + byteLength ((tokens.takeWhile isTrivia).flatMap Token.text))
      (tokens.dropWhile isTrivia) number = spanAt offset tokens number := by
  induction tokens generalizing offset with
  | nil => rfl
  | cons token tokens ih =>
    cases h : token.isTrivia with
    | true =>
      rw [List.takeWhile_cons_of_pos h, List.dropWhile_cons_of_pos h, List.flatMap_cons,
        byteLength_append, ← Nat.add_assoc, ih, spanAt_trivia h]
    | false =>
      rw [List.takeWhile_cons_of_neg (by simp [h]), List.dropWhile_cons_of_neg (by simp [h])]
      rfl

end SpanAt

end Token

namespace Parse

private theorem here_eq (parse : Parse) : parse.here = Token.spanAt parse.offset parse.rest 0 := by
  rw [← Token.spanAt_dropWhile, here, currentText, ahead]
  cases hrest : parse.rest.dropWhile Token.isTrivia with
  | nil => rfl
  | cons token tokens =>
    have htoken := List.head?_dropWhile_not Token.isTrivia parse.rest
    rw [hrest] at htoken
    rw [Token.spanAt_zero htoken]

private theorem spanAt_flush (parse : Parse) (number : Nat) :
    Token.spanAt parse.flush.offset parse.flush.rest number =
      Token.spanAt parse.offset parse.rest number := by
  rw [flush, shiftWhile_eq]
  exact Token.spanAt_dropWhile number

private theorem spanAt_take {parse : Parse} {token : Token} {tokens : List Token}
    (h : Token.significant parse.rest = token :: tokens) (hkind : token.kind ≠ .endOfInput) (number : Nat) :
    Token.spanAt parse.take.offset parse.take.rest number =
      Token.spanAt parse.offset parse.rest (number + 1) := by
  have htoken : token.isTrivia = false := by
    have hmem : token ∈ Token.significant parse.rest := by simp [h]
    simpa using (List.mem_filter.mp hmem).2
  obtain ⟨rest, hrest, -⟩ := flush_rest_of_significant h
  rw [(take_eq h hkind).1, ← spanAt_flush parse, hrest, Token.spanAt_succ htoken, shift, hrest]

private theorem errors_flush (parse : Parse) : parse.flush.errors = parse.errors := by
  rw [flush, shiftWhile_eq]

private theorem errors_take (parse : Parse) : parse.take.errors = parse.errors := by
  unfold take
  split
  · rfl
  · unfold shift
    split <;> exact errors_flush parse

private theorem close_ahead (label : List Tree → NodeKind) (checkpoint : Nat) (parse : Parse) :
    (parse.close label checkpoint).rest = parse.rest ∧
      (parse.close label checkpoint).offset = parse.offset ∧
      (parse.close label checkpoint).errors = parse.errors := by
  unfold close
  split <;> exact ⟨rfl, rfl, rfl⟩

end Parse

/-- The error at another place. -/
def Error.move (move : Span → Span) (error : Error) : Error := ⟨error.problem, move error.span⟩

/-- Both parses have the same significant tokens ahead; those of the second stand where `move` says, and
so do its errors. -/
structure Displaced (move : Span → Span) (p q : Parse) : Prop where
  rest : Token.significant q.rest = Token.significant p.rest
  spans : ∀ number, Token.spanAt q.offset q.rest number = move (Token.spanAt p.offset p.rest number)
  errors : q.errors = p.errors.map (Error.move move)

namespace Displaced

variable {move : Span → Span} {p q : Parse}

theorem flush (h : Displaced move p q) : Displaced move p.flush q.flush where
  rest := by rw [Parse.significant_flush, Parse.significant_flush, h.rest]
  spans number := by rw [Parse.spanAt_flush, Parse.spanAt_flush, h.spans]
  errors := by rw [Parse.errors_flush, Parse.errors_flush, h.errors]

theorem take (h : Displaced move p q) (hend : p.current ≠ .endOfInput) : Displaced move p.take q.take := by
  rw [Parse.current_eq] at hend
  cases hrest : Token.significant p.rest with
  | nil =>
    rw [hrest] at hend
    exact absurd rfl hend
  | cons token tokens =>
    rw [hrest] at hend
    have hother := h.rest.trans hrest
    refine ⟨?_, fun number => ?_, ?_⟩
    · rw [(Parse.take_eq hrest hend).2, (Parse.take_eq hother hend).2]
    · rw [Parse.spanAt_take hrest hend, Parse.spanAt_take hother hend, h.spans]
    · rw [Parse.errors_take, Parse.errors_take, h.errors]

theorem book (h : Displaced move p q) (problem : Problem) :
    Displaced move (p.book problem) (q.book problem) where
  rest := h.rest
  spans := h.spans
  errors := by
    have hhere : q.here = move p.here := by rw [Parse.here_eq, Parse.here_eq, h.spans]
    simp only [Parse.book, List.map_cons, h.errors, hhere, Error.move]

theorem close (h : Displaced move p q) (label other : List Tree → NodeKind) (checkpoint place : Nat) :
    Displaced move (p.close label checkpoint) (q.close other place) := by
  obtain ⟨hrest, hoffset, herrors⟩ := Parse.close_ahead label checkpoint p
  obtain ⟨hrest', hoffset', herrors'⟩ := Parse.close_ahead other place q
  refine ⟨?_, fun number => ?_, ?_⟩
  · rw [hrest, hrest', h.rest]
  · rw [hrest, hrest', hoffset, hoffset', h.spans]
  · rw [herrors, herrors', h.errors]

theorem simulation (move : Span → Span) : Simulation (Displaced move) where
  kinds h := by rw [h.rest]
  booked h := by rw [h.errors, List.length_map]
  fail h := ⟨h.rest, h.spans, h.errors⟩
  flush := flush
  take := take
  book problem h := h.book problem
  unexpected {p q} h := by
    have htext : q.currentText = p.currentText := by
      rw [Parse.currentText_eq, Parse.currentText_eq, h.rest]
    rw [htext]
    exact h.book _
  close _ _ h := h.close _ _ _ _
  wrap _ _ h := h.close _ _ _ _

end Displaced

private theorem Tree.bareAll_leaves (tokens : List Token) :
    bareAll (tokens.map Token.leaf) = (Token.significant tokens).map Token.leaf := by
  induction tokens with
  | nil => rfl
  | cons token tokens ih =>
    rw [List.map_cons, bareAll, ih, Token.significant, Token.significant, List.filter_cons]
    cases h : token.isTrivia with
    | true =>
      have hleaf : token.leaf.isTrivia = true := h
      rw [if_pos hleaf]
      rfl
    | false =>
      have hleaf : token.leaf.isTrivia = false := h
      rw [hleaf, if_neg Bool.false_ne_true]
      rfl

private theorem bareAll_done {parse : Parse} {sketch : Sketch} (h : Sketched [] parse sketch) :
    Tree.bareAll (parse.shiftWhile fun _ => true).parts =
      (sketch.rest.map Token.leaf).reverse ++ sketch.parts := by
  obtain ⟨top, htop, hparts⟩ := h.parts
  have hall : parse.rest.takeWhile (fun _ => true) = parse.rest :=
    List.takeWhile_eq_self_iff.mpr fun _ _ => rfl
  rw [Parse.shiftWhile_eq, hall]
  change Tree.bareAll ((parse.rest.map Token.leaf).reverse ++ parse.parts) = _
  rw [Tree.bareAll_append, Tree.bareAll_reverse, Tree.bareAll_leaves, h.rest, htop, List.append_nil, hparts]

/-- The tree of a text depends on its significant tokens only, blanks and comments aside. -/
theorem bare_parse_congr {text other : List Char}
    (h : Token.significant (Token.ofText other) = Token.significant (Token.ofText text)) :
    (parse other).tree.bare = (parse text).tree.bare := by
  obtain ⟨next, sketch, -, -, hread, hsketched, -, hdone⟩ := parse_faultless text
  obtain ⟨later, outline, -, -, houtline, hother, -, hover⟩ := parse_faultless other
  rw [h, hread] at houtline
  obtain rfl : sketch = outline := (Prod.mk.inj (Option.some.inj houtline)).2
  simp only [parse, Tree.bare, Tree.bareAll_reverse]
  rw [hdone, hover, bareAll_done hsketched, bareAll_done hother]

namespace Error

/-- The flaws of significant tokens whose spans are given by number. -/
def flawsAt (span : Nat → Span) : List Token → List Error
  | [] => []
  | token :: tokens =>
    (token.flaw.toList.map fun flaw => ⟨.flaw flaw, span 0⟩) ++ flawsAt (fun number => span (number + 1)) tokens

private theorem ofTokens_eq (offset : Nat) {tokens : List Token}
    (h : ∀ token ∈ tokens, token.isTrivia = true → token.flaw = none) :
    ofTokens offset tokens = flawsAt (Token.spanAt offset tokens) (Token.significant tokens) := by
  induction tokens generalizing offset with
  | nil => rfl
  | cons token tokens ih =>
    have hrest := ih (offset + byteLength token.text) fun other hmem => h other (by simp [hmem])
    rw [ofTokens, hrest]
    cases htrivia : token.isTrivia with
    | true =>
      have hspan : Token.spanAt offset (token :: tokens) =
          Token.spanAt (offset + byteLength token.text) tokens := funext (Token.spanAt_trivia htrivia)
      rw [h token (by simp) htrivia, Token.significant_cons_trivia htrivia, hspan]
      rfl
    | false =>
      have hspan : (fun number => Token.spanAt offset (token :: tokens) (number + 1)) =
          Token.spanAt (offset + byteLength token.text) tokens := funext (Token.spanAt_succ htrivia)
      rw [Token.significant_cons_solid htrivia, flawsAt, Token.spanAt_zero htrivia, hspan]

private theorem flawsAt_move (move : Span → Span) (span : Nat → Span) (tokens : List Token) :
    flawsAt (fun number => move (span number)) tokens = (flawsAt span tokens).map (Error.move move) := by
  induction tokens generalizing span with
  | nil => rfl
  | cons token tokens ih =>
    rw [flawsAt, flawsAt, List.map_append, List.map_map, ih fun number => span (number + 1)]
    rfl

private theorem ofTokens_displaced {text other : List Char} {move : Span → Span}
    (hrest : Token.significant (Token.ofText other) = Token.significant (Token.ofText text))
    (hspans : ∀ number, Token.spanAt 0 (Token.ofText other) number =
      move (Token.spanAt 0 (Token.ofText text) number)) :
    ofTokens 0 (Token.ofText other) = (ofTokens 0 (Token.ofText text)).map (Error.move move) := by
  have hflaws (source : List Char) : ofTokens 0 (Token.ofText source) =
      flawsAt (Token.spanAt 0 (Token.ofText source)) (Token.significant (Token.ofText source)) :=
    ofTokens_eq 0 (Layout.flaw_tokens _ _)
  rw [hflaws, hflaws, hrest, ← flawsAt_move, funext hspans]

end Error

/-- The errors of a text with the same significant tokens are the same errors at the places where its
tokens stand, in the same order. -/
theorem errors_parse_displaced {text other : List Char} {move : Span → Span}
    (hrest : Token.significant (Token.ofText other) = Token.significant (Token.ofText text))
    (hspans : ∀ number, Token.spanAt 0 (Token.ofText other) number =
      move (Token.spanAt 0 (Token.ofText text) number))
    (hmove : ∀ a b, (move a).start ≤ (move b).start ↔ a.start ≤ b.start) :
    (parse other).errors = (parse text).errors.map (Error.move move) := by
  obtain ⟨next, _, hrun, -, -, -, -, hdone⟩ := parse_faultless text
  obtain ⟨later, _, hlater, -, -, -, -, hover⟩ := parse_faultless other
  let depth := max (callDepth * ((Token.ofText text).length + 1)) (callDepth * ((Token.ofText other).length + 1))
  have hsim := Displaced.simulation move
  have hstart : Displaced move (.start (Token.ofText text)) (.start (Token.ofText other)) :=
    ⟨hrest, hspans, rfl⟩
  have hnext := (hsim.run (hsim.runRule grammar depth) Production.file _ _ hstart).2
  rw [hrun depth (Nat.le_max_left _ _), hlater depth (Nat.le_max_right _ _)] at hnext
  have hbooked : (parseTokens (Token.ofText other)).errors =
      (parseTokens (Token.ofText text)).errors.map (Error.move move) := by
    rw [hdone, hover, Parse.shiftWhile_eq, Parse.shiftWhile_eq]
    exact hnext.errors
  simp only [parse]
  rw [hbooked, Error.ofTokens_displaced hrest hspans, ← List.map_reverse, ← List.map_append]
  refine (List.map_mergeSort fun a _ b _ => ?_).symm
  exact decide_eq_decide.mpr (hmove a.span b.span).symm

end Syntax

end QuantumScript
