import QuantumScript.Proofs.Locating.Diagnostics
import QuantumScript.Proofs.Locating.Offsets
import QuantumScript.Report
/-!
# Marked characters

A report marks the characters of its span. The two ends of the span are counted in characters each on its own,
so the marked stretch is one of the text for any span at all. It is the right one if the span lies between
characters, as those of all reports do.
-/

namespace QuantumScript

namespace Text

private theorem split_of_takeBytes? {n : Nat} {text front : List Char} (h : takeBytes? n text = some front) :
    ∃ rest, text = front ++ rest ∧ byteLength front = n := by
  induction text generalizing n front with
  | nil =>
    cases n with
    | zero =>
      cases h
      exact ⟨[], rfl, rfl⟩
    | succ n => cases h
  | cons c cs ih =>
    cases n with
    | zero =>
      rw [takeBytes?_zero] at h
      cases h
      exact ⟨c :: cs, rfl, rfl⟩
    | succ n =>
      rw [takeBytes?] at h
      split at h
      · obtain ⟨short, hshort, rfl⟩ := Option.map_eq_some_iff.mp h
        obtain ⟨rest, rfl, hlength⟩ := ih hshort
        refine ⟨rest, rfl, ?_⟩
        rw [byteLength_cons]
        omega
      · cases h

private theorem split_of_dropBytes? {n : Nat} {text rest : List Char} (h : dropBytes? n text = some rest) :
    ∃ front, text = front ++ rest ∧ byteLength front = n := by
  induction text generalizing n with
  | nil =>
    cases n with
    | zero =>
      cases h
      exact ⟨[], rfl, rfl⟩
    | succ n => cases h
  | cons c cs ih =>
    cases n with
    | zero =>
      rw [dropBytes?_zero] at h
      cases h
      exact ⟨[], rfl, rfl⟩
    | succ n =>
      rw [dropBytes?] at h
      split at h
      · obtain ⟨short, rfl, hlength⟩ := ih h
        refine ⟨c :: short, rfl, ?_⟩
        rw [byteLength_cons]
        omega
      · cases h

/-- Both ends of the span stand between characters of the text, the start not after the stop. -/
structure Delimits (text : List Char) (span : Span) : Prop where
  start : Boundary text span.start
  stop : Boundary text span.stop
  le : span.start ≤ span.stop

/-- The characters before, within and after the span. -/
structure Splits (text : List Char) (span : Span) (before inside after : List Char) : Prop where
  whole : text = before ++ inside ++ after
  start : byteLength before = span.start
  stop : byteLength (before ++ inside) = span.stop

private theorem Delimits.exists_splits {text : List Char} {span : Span} (h : Delimits text span) :
    ∃ before inside after, Splits text span before inside after := by
  obtain ⟨before, rest, htext, hstart⟩ := h.start
  obtain ⟨longer, after, heq, hstop⟩ := h.stop
  have hle := h.le
  rcases List.append_eq_append_iff.mp (htext.symm.trans heq) with ⟨inside, rfl, rfl⟩ | ⟨more, rfl, rfl⟩
  · exact ⟨before, inside, after, by rw [htext, List.append_assoc], hstart, hstop⟩
  · rw [byteLength_append] at hstart
    refine ⟨longer ++ more, [], rest, by rw [htext, List.append_nil], ?_, ?_⟩
    · rw [byteLength_append]
      exact hstart
    · rw [List.append_nil, byteLength_append]
      omega

private theorem delimits_of_slice? {text : List Char} {span : Span}
    (h : (slice? span.start span.stop text).isSome = true) : Delimits text span := by
  obtain ⟨inside, hinside⟩ := Option.isSome_iff_exists.mp h
  unfold slice? at hinside
  split at hinside
  · rename_i hle
    obtain ⟨rest, hdrop, htake⟩ := Option.bind_eq_some_iff.mp hinside
    obtain ⟨before, rfl, hstart⟩ := split_of_dropBytes? hdrop
    obtain ⟨after, rfl, hlength⟩ := split_of_takeBytes? htake
    refine ⟨⟨before, inside ++ after, rfl, hstart⟩, ⟨before ++ inside, after, ?_, ?_⟩, hle⟩
    · rw [List.append_assoc]
    · rw [byteLength_append]
      omega
  · cases hinside

theorem charsBefore_append (before after : List Char) :
    charsBefore (byteLength before) (before ++ after) = before.length := by
  rw [charsBefore, byteLength_append, Nat.min_eq_left (Nat.le_add_right _ _), takeBytes?_append]

private theorem charsBefore_le (offset : Nat) (text : List Char) : charsBefore offset text ≤ text.length := by
  unfold charsBefore
  split
  · exact length_le_of_takeBytes? ‹_›
  · exact Nat.zero_le _

private theorem stop_marked_le (text : List Char) (span : Span) : (marked text span).stop ≤ text.length := by
  have hstop := charsBefore_le span.stop text
  unfold marked
  dsimp only
  split
  · exact hstop
  · rename_i hempty
    simp only [Bool.or_eq_true, decide_eq_true_eq, not_or, Nat.not_lt, Nat.not_le] at hempty
    exact hempty.2

/-- The stretch stands in the text where the characters of the span do, and marks these. In the place of an
empty span that something follows one character is marked. -/
structure Marks (text : List Char) (span : Span) (stretch : Stretch) : Prop where
  start : ∀ before after, text = before ++ after → byteLength before = span.start →
    stretch.start = before.length
  start_le : stretch.start ≤ stretch.stop
  stop_le : stretch.stop ≤ text.length
  holds : ∀ before inside after, Splits text span before inside after → inside ≠ [] →
    (text.drop stretch.start).take (stretch.stop - stretch.start) = inside
  widened : span.start = span.stop → span.start < byteLength text → stretch.stop = stretch.start + 1

private theorem Splits.marked_eq {text : List Char} {span : Span} {before inside after : List Char}
    (h : Splits text span before inside after) :
    marked text span = ⟨before.length,
      if inside.isEmpty && !after.isEmpty then before.length + 1 else (before ++ inside).length⟩ := by
  obtain ⟨htext, hstart, hstop⟩ := h
  have hbefore : charsBefore span.start text = before.length := by
    rw [htext, ← hstart, List.append_assoc, charsBefore_append]
  have hlonger : charsBefore span.stop text = (before ++ inside).length := by
    rw [htext, ← hstop, charsBefore_append]
  rw [marked, hbefore, hlonger, htext]
  cases inside <;> cases after <;> simp

theorem Delimits.marks {text : List Char} {span : Span} (h : Delimits text span) :
    Marks text span (marked text span) := by
  refine ⟨fun before after htext hstart => ?_, ?_, stop_marked_le text span, ?_, fun hempty hbefore => ?_⟩
  · rw [start_marked, htext, ← hstart, charsBefore_append]
  · obtain ⟨before, inside, after, hsplits⟩ := h.exists_splits
    rw [hsplits.marked_eq]
    dsimp only
    split <;> simp
  · intro before inside after hsplits hinside
    rw [hsplits.marked_eq, hsplits.whole]
    simp [List.isEmpty_eq_false_iff.mpr hinside]
  · obtain ⟨before, inside, after, htext, hstart, hstop⟩ := h.exists_splits
    have hinside : inside = [] := by
      cases inside with
      | nil => rfl
      | cons c cs =>
        have := c.utf8Size_pos
        rw [byteLength_append, byteLength_cons] at hstop
        omega
    have hafter : after ≠ [] := by
      rintro rfl
      rw [htext, List.append_nil] at hbefore
      omega
    rw [Splits.marked_eq ⟨htext, hstart, hstop⟩, hinside]
    simp [List.isEmpty_eq_false_iff.mpr hafter]

end Text

open Text (Delimits Marks marked)

private theorem Analysis.delimits_of_mem {path : Option String} {text : List Char} {initial : SymbolTable}
    {diagnostic : Diagnostic} (h : diagnostic ∈ (ofSource (.ofText path text) initial).diagnostics) :
    Delimits text diagnostic.span := by
  have hmarked := Ast.Script.marked_ofText text
  rcases List.mem_append.mp h with h | hinferred
  · rcases List.mem_append.mp h with hsyntax | hhoisted
    · exact Text.delimits_of_slice? (Source.shows_of_mem_diagnostics hsyntax).1.inside
    · exact Text.delimits_of_slice? (Hoisting.located_warnings hmarked _ _ hhoisted).shows.inside
  · exact Text.delimits_of_slice? (Inference.State.located_ofScript hmarked _ _ hinferred).shows.inside

/-- What a report marks is a stretch of its source. For a span between characters it starts at the start of
the span and holds the characters of the span, or one character if there is none in the span but one after it.
All reports, those of syntax errors alone and those of an analysis, are about such spans. For any other span
the stretch does not go past the end of the source either. -/
theorem reports_marked (path : Option String) (text : List Char) :
    (∀ span, Delimits text span → Marks text span (marked text span)) ∧
    (∀ span, (marked text span).stop ≤ text.length) ∧
    (∀ message span, ((Source.ofText path text).report message span).marked = marked text span) ∧
    (∀ error ∈ (Source.ofText path text).parsed.errors, Delimits text error.span) ∧
    (∀ report ∈ (Source.ofText path text).syntaxReports, ∃ span, Marks text span report.marked) ∧
    ∀ initial, let analysis := Analysis.ofSource (.ofText path text) initial
      (∀ diagnostic ∈ analysis.diagnostics, Delimits text diagnostic.span) ∧
      ∀ report ∈ analysis.reports, ∃ span, Marks text span report.marked := by
  have herrors : ∀ error ∈ (Source.ofText path text).parsed.errors, Delimits text error.span :=
    fun error hmem => Text.delimits_of_slice? (Syntax.inside_of_mem_errors hmem)
  refine ⟨fun span h => h.marks, Text.stop_marked_le text, fun _ _ => rfl, herrors, ?_, fun initial =>
    ⟨fun diagnostic => Analysis.delimits_of_mem, ?_⟩⟩
  · intro report hmem
    obtain ⟨error, herror, rfl⟩ := List.mem_map.mp hmem
    exact ⟨error.span, (herrors error herror).marks⟩
  · intro report hmem
    obtain ⟨diagnostic, hdiagnostic, rfl⟩ := List.mem_map.mp hmem
    exact ⟨diagnostic.span, (Analysis.delimits_of_mem hdiagnostic).marks⟩

/-- The second character of `"äü"` stands at bytes that are not the numbers of characters before it. -/
theorem reports_marked_umlaut :
    let text := ['"', 'ä', 'ü', '"']
    let span : Span := ⟨3, 5⟩
    Delimits text span ∧ Marks text span (marked text span) ∧ marked text span = ⟨2, 3⟩ := by
  intro text span
  have hdelimits : Delimits text span :=
    ⟨⟨['"', 'ä'], ['ü', '"'], rfl, by decide⟩, ⟨['"', 'ä', 'ü'], ['"'], rfl, by decide⟩, by decide⟩
  exact ⟨hdelimits, (reports_marked none text).1 span hdelimits, by decide⟩

end QuantumScript
