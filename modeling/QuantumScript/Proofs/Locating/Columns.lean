import QuantumScript.Diagnostic
import QuantumScript.Proofs.Walking.Extents
/-!
# Columns between characters

Between two characters of a text the column counts the characters since the last line feed. So of two
such places on one line the later one has the greater column, and a span that is not empty is shown with
columns that are not empty.
-/

namespace QuantumScript

namespace Text

/-- The offset stands before, between or after the characters of the text. -/
def Boundary (text : List Char) (offset : Nat) : Prop :=
  ∃ before after, text = before ++ after ∧ byteLength before = offset

private theorem slice?_isSome {text : List Char} {start stop : Nat} (hstart : Boundary text start)
    (hstop : Boundary text stop) (hle : start ≤ stop) : (slice? start stop text).isSome = true := by
  obtain ⟨before, after, rfl, rfl⟩ := hstart
  obtain ⟨whole, rest, heq, rfl⟩ := hstop
  rcases List.append_eq_append_iff.mp heq with ⟨between, rfl, rfl⟩ | ⟨between, rfl, rfl⟩
  · rw [byteLength_append, slice?_append]
    rfl
  · rw [byteLength_append] at hle
    have hnone : byteLength (whole ++ between) = byteLength whole := by
      rw [byteLength_append]
      omega
    rw [hnone]
    simp [slice?, dropBytes?_append]

/-- A text is whole lines and then one line that does not end. -/
theorem exists_closed (text : List Char) :
    ∃ whole line, text = whole ++ line ∧ Closed whole ∧ '\n' ∉ line := by
  induction text with
  | nil => exact ⟨[], [], rfl, .inl rfl, nofun⟩
  | cons c cs ih =>
    obtain ⟨whole, line, rfl, hclosed, hline⟩ := ih
    rcases hclosed with rfl | ⟨before, rfl⟩
    · by_cases hc : c = '\n'
      · exact ⟨[c], line, rfl, .inr ⟨[], congrArg (fun c => [c]) hc⟩, hline⟩
      · exact ⟨[], c :: line, rfl, .inl rfl, List.not_mem_cons_of_ne_of_not_mem (Ne.symm hc) hline⟩
    · exact ⟨c :: (before ++ ['\n']), line, rfl, .inr ⟨c :: before, rfl⟩, hline⟩

private theorem lines_append {line : List Char} (h : '\n' ∉ line) (after : List Char) :
    ∃ first rest, lines (line ++ after) = (line ++ first) :: rest ∧ (first = [] → rest = []) := by
  induction line with
  | nil => exact exists_lines after
  | cons c cs ih =>
    obtain ⟨first, rest, hlines, hlast⟩ := ih (List.not_mem_of_not_mem_cons h)
    refine ⟨first, rest, ?_, hlast⟩
    rw [List.cons_append, lines, if_neg (List.ne_of_not_mem_cons h).symm, hlines]
    rfl

namespace LineIndex

private theorem lineColumn_first {line : List Char} (h : '\n' ∉ line) (after : List Char) :
    (ofText (line ++ after)).lineColumn (byteLength line) = ⟨1, line.length⟩ := by
  obtain ⟨first, rest, hlines, hlast⟩ := lines_append h after
  have hupTo : (ofText (line ++ after)).upTo (byteLength line) = [⟨0, line ++ first⟩] := by
    rw [upTo, ofText, hlines, placeLines, List.takeWhile_cons_of_pos (by simp)]
    congr 1
    cases rest with
    | nil => rfl
    | cons second rest =>
      have hpos : 0 < byteLength first := by
        cases first with
        | nil => exact absurd (hlast rfl) (List.cons_ne_nil _ _)
        | cons c cs =>
          have := c.utf8Size_pos
          rw [byteLength_cons]
          omega
      apply List.takeWhile_cons_of_neg
      simp only [byteLength_append, decide_eq_true_eq]
      omega
  simp [lineColumn, hupTo, column, takeBytes?_append]

/-- At a boundary the line feeds tell the line, and the characters after the last of them the column. -/
theorem lineColumn_boundary {whole line : List Char} (hwhole : Closed whole) (hline : '\n' ∉ line)
    (after : List Char) :
    (ofText (whole ++ line ++ after)).lineColumn (byteLength (whole ++ line)) =
      ⟨whole.count '\n' + 1, line.length⟩ := by
  rw [List.append_assoc, byteLength_append, lineColumn_append hwhole, lineColumn_first hline]

/-- Of two boundaries on one line the later one has the greater column. -/
theorem column_lt {text : List Char} {start stop : Nat} (hstart : Boundary text start)
    (hstop : Boundary text stop) (hlt : start < stop)
    (hsame : ((ofText text).lineColumn stop).line = ((ofText text).lineColumn start).line) :
    ((ofText text).lineColumn start).column < ((ofText text).lineColumn stop).column := by
  obtain ⟨before, after, rfl, rfl⟩ := hstart
  obtain ⟨longer, rest, heq, rfl⟩ := hstop
  obtain ⟨between, rfl, rfl⟩ : ∃ between, longer = before ++ between ∧ after = between ++ rest := by
    rcases List.append_eq_append_iff.mp heq with ⟨between, hlonger, hafter⟩ | ⟨between, hbefore, _⟩
    · exact ⟨between, hlonger, hafter⟩
    · rw [hbefore, byteLength_append] at hlt
      omega
  have hpos : 0 < between.length := by
    cases between with
    | nil => simp at hlt
    | cons c cs => exact Nat.succ_pos _
  obtain ⟨whole, line, rfl, hwhole, hline⟩ := exists_closed before
  rw [lineColumn_boundary hwhole hline] at hsame ⊢
  obtain ⟨farther, last, hlonger, hfarther, hlast⟩ := exists_closed (whole ++ line ++ between)
  have htext : whole ++ line ++ (between ++ rest) = farther ++ last ++ rest := by
    rw [← hlonger, List.append_assoc (whole ++ line)]
  rw [htext, hlonger, lineColumn_boundary hfarther hlast] at hsame ⊢
  -- No more line feeds stand before the later boundary, so there is none in between.
  have hcount : (whole ++ line ++ between).count '\n' = farther.count '\n' := by
    rw [hlonger, List.count_append, List.count_eq_zero.mpr hlast, Nat.add_zero]
  have hnone : '\n' ∉ line ++ between := by
    rw [List.append_assoc, List.count_append] at hcount
    rw [← List.count_eq_zero]
    dsimp only at hsame
    omega
  have hsplit := lineColumn_boundary hwhole hnone rest
  rw [← List.append_assoc, hlonger, lineColumn_boundary hfarther hlast] at hsplit
  rw [(LineColumn.mk.inj hsplit).2, List.length_append]
  exact Nat.lt_add_of_pos_right hpos

end LineIndex

/-- The span can be cut out of the text. The position is on a line of the text, tells the line and the
column of the start of the span, and shows at least one column. -/
structure Shows (text : List Char) (span : Span) (position : Position) : Prop where
  inside : (slice? span.start span.stop text).isSome = true
  place : (LineIndex.ofText text).lineColumn span.start = ⟨position.line + 1, position.start⟩
  line_lt : position.line < (LineIndex.ofText text).count
  start_lt : position.start < position.stop

namespace LineIndex

private theorem line_lt_count (text : List Char) (offset : Nat) :
    ((ofText text).lineColumn offset).line - 1 < (ofText text).count := by
  have hpos := line_pos text offset
  have hlength : 0 < (ofText text).lines.length := by
    rw [← count, count_ofText]
    exact Nat.succ_pos _
  have hle : ((ofText text).lineColumn offset).line ≤ max 1 (ofText text).lines.length := line_le _ offset
  rw [count]
  omega

private theorem place_line (text : List Char) (offset : Nat) :
    (ofText text).lineColumn offset =
      ⟨((ofText text).lineColumn offset).line - 1 + 1, ((ofText text).lineColumn offset).column⟩ := by
  rw [Nat.sub_add_cancel (line_pos text offset)]

/-- A span of whole characters that is not empty is shown as it should be. -/
theorem shows_position {text : List Char} {span : Span} (hstart : Boundary text span.start)
    (hstop : Boundary text span.stop) (hlt : span.start < span.stop) :
    Shows text span ((ofText text).position span) := by
  refine ⟨slice?_isSome hstart hstop (Nat.le_of_lt hlt), place_line text _, line_lt_count text _, ?_⟩
  unfold position
  dsimp only
  split
  · exact column_lt hstart hstop hlt ‹_›
  · exact Nat.lt_succ_self _

end LineIndex

end Text

namespace Diagnostic

open Text

/-- Any span, even one that is none of the text, is shown on a line of the text with one column or
more. -/
theorem syntacticPosition_bounds (text : List Char) (span : Span) :
    (syntacticPosition (LineIndex.ofText text) span).line < (LineIndex.ofText text).count ∧
      (syntacticPosition (LineIndex.ofText text) span).start <
        (syntacticPosition (LineIndex.ofText text) span).stop :=
  ⟨LineIndex.line_lt_count text _, Nat.lt_of_succ_le (Nat.le_max_right _ _)⟩

theorem shows_syntacticPosition {text : List Char} {span : Span}
    (hinside : (slice? span.start span.stop text).isSome = true) :
    Shows text span (syntacticPosition (LineIndex.ofText text) span) :=
  ⟨hinside, LineIndex.place_line text _, (syntacticPosition_bounds text span).1,
    (syntacticPosition_bounds text span).2⟩

end Diagnostic

end QuantumScript
