import QuantumScript.Position
/-!
# Places in a text that goes on

A text that ends with a line feed keeps the places of its offsets when another text follows, and the
offsets of that text are at the same columns as they are there by itself, so many lines further on.
-/

namespace QuantumScript

namespace Text

/-- The text is empty or ends with a line feed. -/
def Closed (text : List Char) : Prop := text = [] ∨ ∃ before, text = before ++ ['\n']

namespace Closed

variable {text : List Char}

private theorem tail {c : Char} {cs : List Char} (h : Closed (c :: cs)) : Closed cs := by
  rcases h with hnil | ⟨before, hbefore⟩
  · cases hnil
  · cases before with
    | nil => exact .inl (List.cons.inj hbefore).2
    | cons d before => exact .inr ⟨before, (List.cons.inj hbefore).2⟩

/-- Its lines stay as they are, except the empty one at the end, which is where the next text
begins. -/
theorem lines (h : Closed text) :
    ∃ whole, Text.lines text = whole ++ [[]] ∧
      ∀ more, Text.lines (text ++ more) = whole ++ Text.lines more := by
  induction text with
  | nil => exact ⟨[], rfl, fun _ => rfl⟩
  | cons c cs ih =>
    obtain ⟨whole, hwhole, happend⟩ := ih h.tail
    by_cases hc : c = '\n'
    · refine ⟨[c] :: whole, ?_, fun more => ?_⟩
      · rw [Text.lines, if_pos hc, hwhole, List.cons_append]
      · rw [List.cons_append, Text.lines, if_pos hc, happend, List.cons_append]
    · cases whole with
      | nil =>
        have hflat := flatten_lines cs
        rw [hwhole] at hflat
        obtain rfl : [] = cs := hflat
        rcases h with hnil | ⟨before, hbefore⟩
        · cases hnil
        · cases before with
          | nil => exact absurd (List.cons.inj hbefore).1 hc
          | cons d before => simp at hbefore
      | cons line whole =>
        refine ⟨(c :: line) :: whole, ?_, fun more => ?_⟩
        · rw [Text.lines, if_neg hc, hwhole]
          rfl
        · rw [List.cons_append, Text.lines, if_neg hc, happend]
          rfl

end Closed

theorem placeLines_append (start : Nat) (texts others : List (List Char)) :
    placeLines start (texts ++ others) =
      placeLines start texts ++ placeLines (start + byteLength texts.flatten) others := by
  induction texts generalizing start with
  | nil => rfl
  | cons line texts ih =>
    rw [List.cons_append, placeLines, placeLines, ih, List.flatten_cons, byteLength_append,
      List.cons_append, Nat.add_assoc]

/-- The line stands so many bytes further on. -/
def Line.shift (more : Nat) (line : Line) : Line := { line with start := more + line.start }

private theorem placeLines_shift (more start : Nat) (texts : List (List Char)) :
    placeLines (more + start) texts = (placeLines start texts).map (Line.shift more) := by
  induction texts generalizing start with
  | nil => rfl
  | cons line texts ih =>
    rw [placeLines, placeLines, Nat.add_assoc, ih]
    rfl

private theorem start_le_of_mem {start : Nat} {texts : List (List Char)} {line : Line}
    (hmem : line ∈ placeLines start texts) : line.start ≤ start + byteLength texts.flatten := by
  induction texts generalizing start with
  | nil => cases hmem
  | cons text texts ih =>
    rw [List.flatten_cons, byteLength_append]
    rcases List.mem_cons.mp hmem with rfl | hmem
    · exact Nat.le_add_right _ _
    · have := ih hmem
      omega

/-- Only the last line may be empty. -/
theorem exists_lines (text : List Char) :
    ∃ first rest, lines text = first :: rest ∧ (first = [] → rest = []) := by
  cases text with
  | nil => exact ⟨[], [], rfl, fun _ => rfl⟩
  | cons c cs =>
    rw [lines]
    split
    · exact ⟨_, _, rfl, fun hnil => absurd hnil (List.cons_ne_nil _ _)⟩
    · split
      · exact ⟨_, _, rfl, fun hnil => absurd hnil (List.cons_ne_nil _ _)⟩
      · exact ⟨_, _, rfl, fun hnil => absurd hnil (List.cons_ne_nil _ _)⟩

namespace LineIndex

/-- The line of an offset is told by the number of lines that are reached. -/
theorem line_eq (index : LineIndex) (offset : Nat) :
    index.line offset = max 1 (index.upTo offset).length := by
  unfold line lineColumn
  dsimp only
  split
  · rename_i line hlast
    have hpos := List.length_pos_of_mem (List.mem_of_getLast? hlast)
    exact (Nat.max_eq_right hpos).symm
  · rename_i hlast
    rw [List.getLast?_eq_none_iff.mp hlast]
    rfl

private theorem exists_last (text : List Char) (offset : Nat) :
    ∃ last, ((ofText text).upTo offset).getLast? = some last := by
  obtain ⟨first, rest, hlines, _⟩ := exists_lines text
  rw [upTo, ofText, hlines, placeLines, List.takeWhile_cons_of_pos (by simp), List.getLast?_cons]
  exact ⟨_, rfl⟩

theorem line_pos (text : List Char) (offset : Nat) :
    0 < ((ofText text).lineColumn offset).line := by
  obtain ⟨last, hlast⟩ := exists_last text offset
  rw [lineColumn, hlast]
  exact List.length_pos_of_mem (List.mem_of_getLast? hlast)

theorem lineColumn_zero (text : List Char) : (ofText text).lineColumn 0 = ⟨1, 0⟩ := by
  obtain ⟨first, rest, hlines, hlast⟩ := exists_lines text
  have hupTo : (ofText text).upTo 0 = [⟨0, first⟩] := by
    rw [upTo, ofText, hlines, placeLines, List.takeWhile_cons_of_pos (by simp)]
    congr 1
    cases rest with
    | nil => rfl
    | cons second rest =>
      have hpos : 0 < byteLength first := by
        cases first with
        | nil => exact absurd (hlast rfl) (List.cons_ne_nil _ _)
        | cons c cs =>
          have := c.utf8Size_pos
          rw [byteLength_cons]
          omega
      exact List.takeWhile_cons_of_neg (by simp; omega)
  simp [lineColumn, hupTo, column]

theorem lineColumn_nil (offset : Nat) : (ofText []).lineColumn offset = ⟨1, 0⟩ := by
  have hupTo : (ofText []).upTo offset = [⟨0, []⟩] := List.takeWhile_cons_of_pos (by simp)
  simp [lineColumn, hupTo, column]

section Closed

variable {text : List Char} (h : Closed text)
include h

private theorem lines_ofText_append :
    ∃ whole, (∀ tail, (ofText (text ++ tail)).lines =
        whole ++ (ofText tail).lines.map (Line.shift (byteLength text))) ∧
      whole.length = text.count '\n' ∧ ∀ line ∈ whole, line.start ≤ byteLength text := by
  obtain ⟨whole, hwhole, happend⟩ := h.lines
  have hflat := flatten_lines text
  have hlength := length_lines text
  rw [hwhole] at hflat hlength
  simp only [List.flatten_append, List.flatten_singleton, List.append_nil] at hflat
  simp only [List.length_append, List.length_singleton] at hlength
  refine ⟨placeLines 0 whole, fun tail => ?_, ?_, ?_⟩
  · simp only [ofText, happend, placeLines_append, hflat]
    rw [Nat.zero_add, ← Nat.add_zero (byteLength text), placeLines_shift, Nat.add_zero]
  · rw [length_placeLines]
    omega
  · intro line hmem
    have := start_le_of_mem hmem
    rwa [hflat, Nat.zero_add] at this

/-- An offset in the text that follows. -/
theorem lineColumn_append (tail : List Char) (offset : Nat) :
    (ofText (text ++ tail)).lineColumn (byteLength text + offset) =
      ⟨text.count '\n' + ((ofText tail).lineColumn offset).line,
        ((ofText tail).lineColumn offset).column⟩ := by
  obtain ⟨whole, hlines, hlength, hstarts⟩ := lines_ofText_append h
  have hupTo : (ofText (text ++ tail)).upTo (byteLength text + offset) =
      whole ++ ((ofText tail).upTo offset).map (Line.shift (byteLength text)) := by
    have hsame : (fun line : Line => decide (line.start ≤ byteLength text + offset)) ∘
        Line.shift (byteLength text) = fun line => decide (line.start ≤ offset) := by
      funext line
      simp [Line.shift]
    rw [upTo, hlines, List.takeWhile_append_of_pos, List.takeWhile_map, hsame, upTo]
    intro line hmem
    have := hstarts line hmem
    simp only [decide_eq_true_eq]
    omega
  obtain ⟨last, hlast⟩ := exists_last tail offset
  have hsub : byteLength text + offset - (byteLength text + last.start) = offset - last.start := by
    omega
  simp [lineColumn, hupTo, List.getLast?_append, List.getLast?_map, hlast, hlength, Line.shift, hsub]

private theorem exists_upTo {offset : Nat} (hlt : offset < byteLength text) :
    ∃ reached, reached.length ≤ text.count '\n' ∧
      ∀ tail, (ofText (text ++ tail)).upTo offset = reached := by
  obtain ⟨whole, hlines, hlength, _⟩ := lines_ofText_append h
  refine ⟨whole.takeWhile fun line => line.start ≤ offset, ?_, fun tail => ?_⟩
  · rw [← hlength]
    exact (List.takeWhile_prefix _).length_le
  · have hnone : ((ofText tail).lines.map (Line.shift (byteLength text))).takeWhile
        (fun line => decide (line.start ≤ offset)) = [] := by
      cases (ofText tail).lines with
      | nil => rfl
      | cons line lines =>
        apply List.takeWhile_cons_of_neg
        rw [decide_eq_true_eq]
        change ¬byteLength text + line.start ≤ offset
        omega
    rw [upTo, hlines, List.takeWhile_append, hnone, List.append_nil]
    split
    · rename_i hall
      exact ((List.takeWhile_prefix _).eq_of_length hall).symm
    · rfl

private theorem upTo_within (tail : List Char) {offset : Nat} (hlt : offset < byteLength text) :
    (ofText (text ++ tail)).upTo offset = (ofText text).upTo offset := by
  obtain ⟨reached, _, hreached⟩ := exists_upTo h hlt
  have hself := hreached []
  rw [List.append_nil] at hself
  rw [hreached tail, hself]

/-- What stands in the text is above what follows. -/
theorem line_lt (tail : List Char) {offset later : Nat} (hlt : offset < byteLength text)
    (hle : byteLength text ≤ later) :
    (ofText (text ++ tail)).line offset < (ofText (text ++ tail)).line later := by
  obtain ⟨reached, hlength, hreached⟩ := exists_upTo h hlt
  have hfeed : 1 ≤ text.count '\n' := by
    rcases h with rfl | ⟨before, rfl⟩
    · exact absurd hlt (Nat.not_lt_zero _)
    · rw [List.count_append, List.count_singleton_self]
      exact Nat.le_add_left _ _
  have hearly : (ofText (text ++ tail)).line offset ≤ text.count '\n' := by
    rw [line_eq, hreached]
    exact Nat.max_le.mpr ⟨hfeed, hlength⟩
  have hlate := line_pos tail (later - byteLength text)
  have happend := congrArg LineColumn.line (lineColumn_append h tail (later - byteLength text))
  rw [Nat.add_sub_cancel' hle] at happend
  have hline : (ofText (text ++ tail)).line later =
      text.count '\n' + ((ofText tail).lineColumn (later - byteLength text)).line := happend
  omega

/-- An offset in the text itself. All offsets past its end are taken for its end. -/
theorem lineColumn_within (tail : List Char) (offset : Nat) :
    (ofText (text ++ tail)).lineColumn (min offset (byteLength text)) =
      (ofText text).lineColumn offset := by
  by_cases hle : byteLength text ≤ offset
  · have hend := lineColumn_append h tail 0
    have hover := lineColumn_append h [] (offset - byteLength text)
    rw [lineColumn_zero] at hend
    rw [lineColumn_nil, List.append_nil, Nat.add_sub_cancel' hle] at hover
    rw [Nat.min_eq_right hle, hover]
    exact hend
  · have hlt := Nat.lt_of_not_le hle
    rw [Nat.min_eq_left (Nat.le_of_lt hlt), lineColumn, upTo_within h tail hlt, lineColumn]

end Closed

end LineIndex

end Text

end QuantumScript
