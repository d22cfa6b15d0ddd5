import QuantumScript.Proofs.Lexing.Flaws
import QuantumScript.Proofs.Parsing.Invariants
/-!
# Errors in order

The errors of a parse are those that the grammar has booked and the flaws of the tokens. The grammar books at
the next token, so it books from left to right, and sorting by start merges the two without changing the order
of either.
-/

namespace QuantumScript

namespace Syntax

open Text (byteLength)

private theorem Token.getElem?_starts (offset : Nat) (front rest : List Token) :
    (starts offset (front ++ rest))[front.length]? = some (offset + byteLength (front.flatMap Token.text)) := by
  induction front generalizing offset with
  | nil => exact starts_zero offset rest
  | cons token front ih =>
    rw [List.cons_append, starts, List.length_cons, List.getElem?_cons_succ, ih, List.flatMap_cons,
      Text.byteLength_append, Nat.add_assoc]

private theorem Token.length_starts (offset : Nat) (tokens : List Token) :
    (starts offset tokens).length = tokens.length + 1 := by
  induction tokens generalizing offset with
  | nil => rfl
  | cons token tokens ih => rw [starts, List.length_cons, ih, List.length_cons]

namespace Lexed

variable {text : List Char} {front rest : List Token}

private theorem start_eq (text : List Char) (index : Nat) :
    (ofText text).start index = (Token.starts 0 (Token.ofText text))[index]?.getD (ofText text).stop := by
  rw [start, Array.getD_eq_getD_getElem?, ← Array.getElem?_toList, ← starts_ofText, List.getElem?_append]
  split
  · rfl
  · rename_i hge
    rw [List.getElem?_eq_none (Nat.not_lt.mp hge)]
    cases index - (ofText text).starts.toList.length <;> rfl

private theorem start_length (h : Token.ofText text = front ++ rest) :
    (ofText text).start front.length = byteLength (front.flatMap Token.text) := by
  rw [start_eq, h, Token.getElem?_starts, Option.getD_some, Nat.zero_add]

theorem span_cons {token : Token} (h : Token.ofText text = front ++ token :: rest) :
    (ofText text).span front.length = ⟨byteLength (front.flatMap Token.text),
      byteLength (front.flatMap Token.text) + byteLength token.text⟩ := by
  have hnext := start_length (h.trans (List.append_cons front token rest))
  rw [List.length_append, List.length_singleton, List.flatMap_append, Text.byteLength_append,
    List.flatMap_singleton] at hnext
  rw [span, start_length h, hnext]

private theorem length_starts (text : List Char) :
    (ofText text).starts.toList.length = (Token.ofText text).length := by
  have h := congrArg List.length (starts_ofText text)
  rw [List.length_append, Token.length_starts] at h
  exact Nat.succ.inj h

private theorem stop_eq (text : List Char) : (ofText text).stop = byteLength text := by
  have h := Token.getElem?_starts 0 (Token.ofText text) []
  rw [List.append_nil, ← starts_ofText, ← length_starts, List.getElem?_concat_length, Nat.zero_add,
    Token.flatMap_text_ofText] at h
  exact Option.some.inj h

private theorem span_length (text : List Char) :
    (ofText text).span (Token.ofText text).length = .empty (byteLength text) := by
  have hstart := start_length (List.append_nil (Token.ofText text)).symm
  have hpast : (Token.starts 0 (Token.ofText text))[(Token.ofText text).length + 1]? = none :=
    List.getElem?_eq_none (Nat.le_of_eq (Token.length_starts 0 _))
  rw [Token.flatMap_text_ofText] at hstart
  rw [span, hstart, start_eq, hpast, Option.getD_none, stop_eq]
  rfl

/-- An entry as an error at its token. -/
def error (lexed : Lexed) (entry : Nat × Flaw) : Error := ⟨.flaw entry.2, lexed.span entry.1⟩

private theorem errors_eq (h : Token.ofText text = front ++ rest) :
    Error.ofTokens (byteLength (front.flatMap Token.text)) rest =
      (entries front.length rest).map (ofText text).error := by
  induction rest generalizing front with
  | nil => rfl
  | cons token rest ih =>
    have hnext := ih (h.trans (List.append_cons front token rest))
    rw [List.length_append, List.length_singleton, List.flatMap_append, Text.byteLength_append,
      List.flatMap_singleton] at hnext
    rw [Error.ofTokens, entries, hnext, List.map_append, List.map_map]
    congr 1
    apply List.map_congr_left
    intro flaw _
    rw [Function.comp_apply, error, span_cons h]

end Lexed

namespace Parse

private theorem here_le_shift (parse : Parse) : parse.here.start ≤ parse.shift.here.start := by
  unfold shift
  split
  · exact Nat.le_refl _
  · rename_i token rest heq
    unfold here
    dsimp only
    rw [heq, List.takeWhile_cons]
    split
    · rw [List.flatMap_cons, Text.byteLength_append, Nat.add_assoc]
    · simp only [List.flatMap_nil, Text.byteLength_nil]
      omega

/-- The tokens ahead are those from the offset on. The errors stand at tokens or at the end, in the order in
which they were booked and none behind the next token. -/
structure Paced (text : List Char) (parse : Parse) : Prop where
  ahead : ∃ front, Token.ofText text = front ++ parse.rest ∧
    byteLength (front.flatMap Token.text) = parse.offset
  seated : ∀ error ∈ parse.errors, ∃ index ≤ (Token.ofText text).length,
    error.span = (Lexed.ofText text).span index
  behind : ∀ error ∈ parse.errors, error.span.start ≤ parse.here.start
  falling : parse.errors.Pairwise fun error earlier => earlier.span.start ≤ error.span.start

namespace Paced

variable {text : List Char} {parse : Parse}

theorem start (text : List Char) : Paced text (.start (Token.ofText text)) :=
  ⟨⟨[], rfl, rfl⟩, List.forall_mem_nil _, List.forall_mem_nil _, .nil⟩

theorem shift (h : Paced text parse) : Paced text parse.shift := by
  obtain ⟨front, htokens, hoffset⟩ := h.ahead
  have hle := parse.here_le_shift
  have herrors : parse.shift.errors = parse.errors := by
    unfold Parse.shift
    split <;> rfl
  refine ⟨?_, herrors ▸ h.seated, ?_, herrors ▸ h.falling⟩
  · unfold Parse.shift
    split
    · exact h.ahead
    · rename_i token rest heq
      refine ⟨front ++ [token], ?_, ?_⟩
      · rw [htokens, heq, List.append_cons]
      · rw [List.flatMap_append, Text.byteLength_append, hoffset, List.flatMap_singleton]
  · rw [herrors]
    exact fun error hmem => Nat.le_trans (h.behind error hmem) hle

private theorem exists_here (h : Paced text parse) :
    ∃ index ≤ (Token.ofText text).length, parse.here = (Lexed.ofText text).span index := by
  obtain ⟨front, htokens, hoffset⟩ := h.ahead
  have hsplit : Token.ofText text = (front ++ parse.rest.takeWhile Token.isTrivia) ++ parse.ahead := by
    rw [Parse.ahead, List.append_assoc, List.takeWhile_append_dropWhile, htokens]
  refine ⟨(front ++ parse.rest.takeWhile Token.isTrivia).length, ?_, ?_⟩
  · rw [hsplit]
    exact (List.prefix_append _ _).length_le
  · unfold Parse.here Parse.currentText
    dsimp only
    cases hahead : parse.ahead with
    | nil =>
      rw [hahead, List.append_nil] at hsplit
      have hstop := congrArg (fun tokens => byteLength (tokens.flatMap Token.text)) hsplit
      rw [Token.flatMap_text_ofText, List.flatMap_append, Text.byteLength_append, hoffset] at hstop
      rw [← hsplit, Lexed.span_length, hstop]
      rfl
    | cons token rest =>
      rw [hahead] at hsplit
      rw [Lexed.span_cons hsplit, List.flatMap_append, Text.byteLength_append, hoffset]

theorem book (h : Paced text parse) (problem : Problem) : Paced text (parse.book problem) :=
  ⟨h.ahead, List.forall_mem_cons.mpr ⟨h.exists_here, h.seated⟩,
    List.forall_mem_cons.mpr ⟨Nat.le_refl _, h.behind⟩, List.pairwise_cons.mpr ⟨h.behind, h.falling⟩⟩

theorem invariant (text : List Char) : Invariant (Paced text) where
  fail h := ⟨h.ahead, h.seated, h.behind, h.falling⟩
  shift := shift
  book problem h := h.book problem
  close label checkpoint h := by
    unfold Parse.close
    split <;> exact ⟨h.ahead, h.seated, h.behind, h.falling⟩

end Paced

end Parse

private theorem paced_parseTokens (text : List Char) : (parseTokens (Token.ofText text)).Paced text :=
  (Parse.Paced.invariant text).parseTokens (.start text)

/-- The flaws of a text are listed from left to right, can be looked up by index, and are those due to its
lexemes. The token of a lexeme has its text, and the one before it opens a block for it if it strays. -/
structure Lexed.Lists (text : List Char) (lexed : Lexed) : Prop where
  tokens : lexed.tokens.toList = Token.ofText text
  rising : lexed.flaws.toList.Pairwise fun entry next => entry.1 < next.1
  bounded : ∀ entry ∈ lexed.flaws.toList, entry.1 < lexed.tokens.size
  found : ∀ index flaw, lexed.flaw? index = some flaw ↔ (index, flaw) ∈ lexed.flaws
  due : lexed.flaws.toList = Layout.entries [] (Lexeme.ofText text)
  seated : ∀ before lexeme after, Lexeme.ofText text = before ++ lexeme :: after →
    (∃ own : Token, lexed.tokens[Layout.seat before lexeme]? = some own ∧ own.text = lexeme.text ∧
      own.flaw = lexeme.flaw?) ∧
    ((Layout.reach before).strays lexeme → 0 < Layout.seat before lexeme ∧
      lexed.tokens[Layout.seat before lexeme - 1]? = some Token.strayIndent)

private theorem Lexed.lists_ofText (text : List Char) : Lexed.Lists text (.ofText text) where
  tokens := tokens_ofText text
  rising := by
    rw [flaws_ofText]
    exact pairwise_entries 0 _
  bounded entry hmem := by
    rw [flaws_ofText] at hmem
    have := (mem_entries hmem).2
    rwa [Nat.zero_add, ← tokens_ofText, Array.length_toList] at this
  found _ _ := flaw?_eq_some
  due := flaws_eq text
  seated before lexeme after h := by
    have hseat := Layout.getElem?_seat h
    rw [← tokens_ofText, Array.getElem?_toList, Array.getElem?_toList] at hseat
    exact hseat

/-- Two lists of errors, merged by start: each in its order, and the first one first where both start. -/
structure Error.Merges (first second merged : List Error) : Prop where
  perm : merged.Perm (first ++ second)
  sorted : merged.Pairwise fun error next => error.span.start ≤ next.span.start
  first_sublist : first.Sublist merged
  second_sublist : second.Sublist merged
  tied : ∀ start, merged.filter (fun error => error.span.start = start) =
    first.filter (fun error => error.span.start = start) ++ second.filter (fun error => error.span.start = start)

/-- Lists that are in order are merged by a stable sort. Errors that tie are in order already, so the sort keeps
them as they are. -/
private theorem Error.merges_mergeSort {first second : List Error}
    (hfirst : first.Pairwise fun error next => error.span.start ≤ next.span.start)
    (hsecond : second.Pairwise fun error next => error.span.start ≤ next.span.start) :
    Merges first second ((first ++ second).mergeSort fun a b => a.span.start ≤ b.span.start) := by
  have htrans (a b c : Error) : decide (a.span.start ≤ b.span.start) = true →
      decide (b.span.start ≤ c.span.start) = true → decide (a.span.start ≤ c.span.start) = true := by
    simp only [decide_eq_true_eq]
    exact Nat.le_trans
  have htotal (a b : Error) :
      (decide (a.span.start ≤ b.span.start) || decide (b.span.start ≤ a.span.start)) = true := by
    simp only [Bool.or_eq_true, decide_eq_true_eq]
    exact Nat.le_total _ _
  have hperm := List.mergeSort_perm (first ++ second) fun a b => a.span.start ≤ b.span.start
  have hstable {errors : List Error} (hsub : errors.Sublist (first ++ second))
      (hsorted : errors.Pairwise fun error next => error.span.start ≤ next.span.start) :
      errors.Sublist ((first ++ second).mergeSort fun a b => a.span.start ≤ b.span.start) :=
    List.sublist_mergeSort htrans htotal (by simpa using hsorted) hsub
  refine ⟨hperm, ?_, hstable (List.sublist_append_left _ _) hfirst,
    hstable (List.sublist_append_right _ _) hsecond, fun start => ?_⟩
  · simpa using List.pairwise_mergeSort htrans htotal (first ++ second)
  · have htied := hstable (List.filter_sublist (p := fun error => error.span.start = start)) (by
      refine List.pairwise_of_forall_mem_list fun error hmem next hnext => ?_
      have := (List.mem_filter.mp hmem).2
      have := (List.mem_filter.mp hnext).2
      simp_all)
    have hsame := htied.filter fun error => error.span.start = start
    simp only [List.filter_filter, Bool.and_self] at hsame
    rw [← List.filter_append]
    exact (hsame.eq_of_length (hperm.filter _).length_eq.symm).symm

private theorem Error.le_of_mem_ofTokens {offset : Nat} {tokens : List Token} {error : Error}
    (h : error ∈ ofTokens offset tokens) : offset ≤ error.span.start := by
  induction tokens generalizing offset with
  | nil => cases h
  | cons token tokens ih =>
    rcases List.mem_append.mp h with hfirst | hlater
    · obtain ⟨flaw, _, rfl⟩ := List.mem_map.mp hfirst
      exact Nat.le_refl _
    · exact Nat.le_trans (Nat.le_add_right _ _) (ih hlater)

private theorem Error.pairwise_ofTokens (offset : Nat) (tokens : List Token) :
    (ofTokens offset tokens).Pairwise fun error next => error.span.start ≤ next.span.start := by
  induction tokens generalizing offset with
  | nil => exact .nil
  | cons token tokens ih =>
    have hlater : ∀ error ∈ ofTokens (offset + byteLength token.text) tokens, offset ≤ error.span.start :=
      fun error hmem => Nat.le_trans (Nat.le_add_right _ _) (le_of_mem_ofTokens hmem)
    rw [ofTokens]
    cases token.flaw with
    | none => exact ih _
    | some flaw => exact List.pairwise_cons.mpr ⟨hlater, ih _⟩

private theorem Lexed.errors_ofText (text : List Char) :
    Error.ofTokens 0 (Token.ofText text) = (ofText text).flaws.toList.map (ofText text).error := by
  rw [flaws_ofText]
  exact errors_eq (List.nil_append _).symm

private theorem Lexed.slice_span (text : List Char) {index : Nat} (h : index ≤ (Token.ofText text).length) :
    Text.slice? ((ofText text).span index).start ((ofText text).span index).stop text =
      some (((Token.ofText text)[index]?.map Token.text).getD []) := by
  obtain ⟨front, rest, hsplit, rfl⟩ : ∃ front rest, Token.ofText text = front ++ rest ∧ front.length = index :=
    ⟨_, _, (List.take_append_drop index _).symm, List.length_take_of_le h⟩
  have htext := Token.flatMap_text_ofText text
  cases rest with
  | nil =>
    rw [List.append_nil] at hsplit
    rw [← hsplit, span_length, List.getElem?_eq_none (Nat.le_refl _)]
    have hend := Text.slice?_append text [] []
    rwa [List.append_nil, List.append_nil] at hend
  | cons token rest =>
    have hslice := Text.slice?_append (front.flatMap Token.text) token.text (rest.flatMap Token.text)
    rw [hsplit, List.flatMap_append, List.flatMap_cons] at htext
    rw [htext] at hslice
    rw [span_cons hsplit, hsplit, List.getElem?_append_right (Nat.le_refl _), Nat.sub_self]
    exact hslice

end Syntax

end QuantumScript
