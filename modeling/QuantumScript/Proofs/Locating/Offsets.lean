import Mathlib.Data.List.DropRight
import QuantumScript.Proofs.Locating.Columns
/-!
# Offsets of a text

Every offset has a line and a column, whether it stands between two characters, within one or past the end. In
numbers of 32 bits one place is missing: the line behind as many line feeds as a text may have.
Between characters the line feeds before it and the characters after the last of them tell both, so such
offsets are shown in their order. For any other offset the search for its line finds exactly one, since the
lines start at offsets that increase.
-/

namespace QuantumScript

namespace Text

/-- On an earlier line, or farther left on the same line. -/
def LineColumn.Before (place other : LineColumn) : Prop :=
  place.line < other.line ∨ place.line = other.line ∧ place.column < other.column

section Texts

/-- What follows the last line feed of a text. -/
def afterLastFeed (text : List Char) : List Char := text.rtakeWhile (· ≠ '\n')

private theorem afterLastFeed_closed {whole line : List Char} (hwhole : Closed whole) (hline : '\n' ∉ line) :
    afterLastFeed (whole ++ line) = line := by
  have hall : ∀ c ∈ line.reverse, decide (c ≠ '\n') = true := by
    intro c hmem
    rw [decide_eq_true_eq]
    rintro rfl
    exact hline (List.mem_reverse.mp hmem)
  rw [afterLastFeed, List.rtakeWhile, List.reverse_append, List.takeWhile_append_of_pos hall]
  rcases hwhole with rfl | ⟨before, rfl⟩
  · simp
  · simp

private theorem takeBytes?_of_le {n : Nat} {line : List Char} (h : n ≤ byteLength line) (rest : List Char) :
    takeBytes? n (line ++ rest) = takeBytes? n line := by
  induction line generalizing n with
  | nil =>
    obtain rfl : n = 0 := Nat.le_zero.mp h
    simp
  | cons c cs ih =>
    cases n with
    | zero => simp
    | succ n =>
      rw [byteLength_cons] at h
      rw [List.cons_append, takeBytes?, takeBytes?, ih (by omega)]

theorem length_le_of_takeBytes? {n : Nat} {text before : List Char} (h : takeBytes? n text = some before) :
    before.length ≤ text.length := by
  induction text generalizing n before with
  | nil =>
    cases n with
    | zero =>
      cases h
      exact Nat.le_refl 0
    | succ n => cases h
  | cons c cs ih =>
    cases n with
    | zero =>
      rw [takeBytes?_zero] at h
      cases h
      exact Nat.zero_le _
    | succ n =>
      rw [takeBytes?] at h
      split at h
      · obtain ⟨front, hfront, rfl⟩ := Option.map_eq_some_iff.mp h
        exact Nat.succ_le_succ (ih hfront)
      · cases h

private theorem lines_of_not_mem {line : List Char} (h : '\n' ∉ line) : lines line = [line] := by
  induction line with
  | nil => rfl
  | cons c cs ih =>
    rw [lines, if_neg (List.ne_of_not_mem_cons h).symm, ih (List.not_mem_of_not_mem_cons h)]

private theorem LineIndex.column_le (line : List Char) (offset : Nat) :
    LineIndex.column line offset ≤ line.length := by
  unfold LineIndex.column
  split
  · rename_i before htake
    exact length_le_of_takeBytes? htake
  · exact Nat.zero_le _

private theorem byteLength_replicate (n : Nat) : byteLength (List.replicate n '\n') = n := by
  induction n with
  | zero => rfl
  | succ n ih =>
    rw [List.replicate_succ, byteLength_cons, ih, Nat.add_comm]
    rfl

theorem length_le_byteLength (text : List Char) : text.length ≤ byteLength text := by
  induction text with
  | nil => exact Nat.le_refl 0
  | cons c cs ih =>
    have := c.utf8Size_pos
    rw [List.length_cons, byteLength_cons]
    omega

end Texts

section Starts

private theorem le_start_of_mem {start : Nat} {texts : List (List Char)} {line : Line}
    (hmem : line ∈ placeLines start texts) : start ≤ line.start := by
  induction texts generalizing start with
  | nil => cases hmem
  | cons text texts ih =>
    rcases List.mem_cons.mp hmem with rfl | hmem
    · exact Nat.le_refl _
    · exact Nat.le_trans (Nat.le_add_right _ _) (ih hmem)

/-- The lines start at offsets that increase. The induction is on the text, which the first line holds a
character of. -/
private theorem pairwise_placeLines (start : Nat) (text : List Char) :
    (placeLines start (lines text)).Pairwise fun line next => line.start < next.start := by
  induction text generalizing start with
  | nil => exact List.pairwise_singleton _ _
  | cons c cs ih =>
    have hpos := c.utf8Size_pos
    rw [lines]
    split
    · rw [placeLines]
      refine List.pairwise_cons.mpr ⟨fun next hmem => ?_, ih _⟩
      have := le_start_of_mem hmem
      rw [byteLength_cons] at this
      dsimp only
      omega
    · have hrest := ih (start + c.utf8Size)
      split
      · exact List.pairwise_singleton _ _
      · rename_i line rest hlines
        rw [hlines, placeLines, Nat.add_assoc, ← byteLength_cons] at hrest
        rw [placeLines]
        refine List.pairwise_cons.mpr ⟨fun next hmem => ?_, (List.pairwise_cons.mp hrest).2⟩
        have := le_start_of_mem hmem
        rw [byteLength_cons] at this
        dsimp only
        omega

private theorem placeLines_split {start : Nat} {texts : List (List Char)} {earlier later : List Line}
    {line : Line}
    (h : placeLines start texts = earlier ++ line :: later) :
    ∃ above below, texts = above ++ line.text :: below ∧ line.start = start + byteLength above.flatten ∧
      later = placeLines (line.start + byteLength line.text) below := by
  induction texts generalizing start earlier with
  | nil => simp [placeLines] at h
  | cons text texts ih =>
    cases earlier with
    | nil =>
      obtain ⟨rfl, rfl⟩ := List.cons.inj h
      exact ⟨[], texts, rfl, rfl, rfl⟩
    | cons first earlier =>
      obtain ⟨-, hrest⟩ := List.cons.inj h
      obtain ⟨above, below, rfl, hstart, hlater⟩ := ih hrest
      refine ⟨text :: above, below, rfl, ?_, hlater⟩
      rw [hstart, List.flatten_cons, byteLength_append, Nat.add_assoc]

end Starts

namespace LineIndex

/-- The line of an offset stands at a place among the lines of the text: it starts at or before the offset
and the next one after it. The line is told by its number, and the column by the characters from its start
to the offset or to the end of the text, if they can be cut out. -/
structure Finds (text : List Char) (offset : Nat) (earlier : List Line) (line : Line) (later : List Line) :
    Prop where
  lines : (ofText text).lines = earlier ++ line :: later
  reached : line.start ≤ offset
  beyond : ∀ next ∈ later, offset < next.start
  number : ((ofText text).lineColumn offset).line = earlier.length + 1
  column : ((ofText text).lineColumn offset).column =
    ((slice? line.start (min offset (byteLength text)) text).map List.length).getD 0

private theorem exists_reached (text : List Char) (offset : Nat) :
    ∃ earlier line later, (ofText text).lines = earlier ++ line :: later ∧ line.start ≤ offset ∧
      (∀ next ∈ later, offset < next.start) ∧
      (ofText text).lineColumn offset = ⟨earlier.length + 1, LineIndex.column line.text (offset - line.start)⟩ := by
  obtain ⟨first, rest, hlines, -⟩ := exists_lines text
  have hpairwise : (ofText text).lines.Pairwise fun line next => line.start < next.start :=
    pairwise_placeLines 0 text
  have hreached : (ofText text).upTo offset ≠ [] := by
    rw [upTo, ofText, hlines, placeLines, List.takeWhile_cons_of_pos (by simp)]
    exact List.cons_ne_nil _ _
  obtain ⟨earlier, line, hupTo⟩ := (List.eq_nil_or_concat' _).resolve_left hreached
  have hsplit : (ofText text).lines =
      earlier ++ line :: (ofText text).lines.dropWhile fun line => line.start ≤ offset := by
    rw [← List.singleton_append, ← List.append_assoc, ← hupTo, upTo, List.takeWhile_append_dropWhile]
  have hline : line.start ≤ offset := by
    have hmem : line ∈ (ofText text).upTo offset := by
      rw [hupTo]
      exact List.mem_append_right _ (List.mem_singleton_self _)
    simpa using List.mem_takeWhile_imp hmem
  refine ⟨earlier, line, _, hsplit, hline, ?_, ?_⟩
  · rw [hsplit] at hpairwise
    have hlater := (List.pairwise_cons.mp (List.pairwise_append.mp hpairwise).2.1).2
    cases hdrop : (ofText text).lines.dropWhile fun line => line.start ≤ offset with
    | nil => exact List.forall_mem_nil _
    | cons next later =>
      have hnext : offset < next.start := by
        have hnot := List.head?_dropWhile_not (fun line : Line => decide (line.start ≤ offset))
          (ofText text).lines
        rw [hdrop] at hnot
        simpa using hnot
      rw [hdrop] at hlater
      intro other hmem
      rcases List.mem_cons.mp hmem with rfl | hmem
      · exact hnext
      · exact Nat.lt_trans hnext ((List.pairwise_cons.mp hlater).1 other hmem)
  · rw [lineColumn, hupTo, List.getLast?_concat, List.length_append, List.length_singleton]

private theorem exists_finds (text : List Char) (offset : Nat) :
    ∃ earlier line later, Finds text offset earlier line later := by
  obtain ⟨earlier, line, later, hlines, hreached, hbeyond, hplace⟩ := exists_reached text offset
  refine ⟨earlier, line, later, hlines, hreached, hbeyond, by rw [hplace], ?_⟩
  obtain ⟨above, below, htexts, hstart, rfl⟩ := placeLines_split hlines
  have htext : text = above.flatten ++ (line.text ++ below.flatten) := by
    rw [← flatten_lines text, htexts, List.flatten_append, List.flatten_cons]
  have hlength : byteLength text = line.start + (byteLength line.text + byteLength below.flatten) := by
    rw [hstart, htext, byteLength_append, byteLength_append, Nat.zero_add]
  have hdrop : dropBytes? line.start text = some (line.text ++ below.flatten) := by
    rw [hstart, htext, Nat.zero_add, dropBytes?_append]
  -- The offset stands in the line or past the end of the text.
  have hmin : min offset (byteLength text) - line.start = min (offset - line.start) (byteLength line.text) := by
    cases below with
    | nil =>
      rw [List.flatten_nil, byteLength_nil] at hlength
      omega
    | cons next below =>
      have hnext := hbeyond ⟨line.start + byteLength line.text, next⟩ List.mem_cons_self
      dsimp only at hnext
      omega
  have hle : line.start ≤ min offset (byteLength text) := by omega
  rw [hplace, LineIndex.column, slice?, if_pos hle, hdrop, Option.bind_some, hmin,
    takeBytes?_of_le (Nat.min_le_right _ _)]
  cases takeBytes? (min (offset - line.start) (byteLength line.text)) line.text <;> rfl

private theorem lineColumn_le (text : List Char) (offset : Nat) :
    ((ofText text).lineColumn offset).line ≤ byteLength text + 1 ∧
      ((ofText text).lineColumn offset).column ≤ byteLength text := by
  obtain ⟨earlier, line, later, hlines, -, -, hplace⟩ := exists_reached text offset
  rw [hplace]
  constructor
  · have hcount : (ofText text).count = text.count '\n' + 1 := count_ofText text
    have hfeeds : text.count '\n' ≤ text.length := List.count_le_length
    have hbytes := length_le_byteLength text
    rw [count, hlines, List.length_append, List.length_cons] at hcount
    dsimp only
    omega
  · obtain ⟨above, below, htexts, -, -⟩ := placeLines_split hlines
    have hbytes := congrArg byteLength (flatten_lines text)
    rw [htexts, List.flatten_append, List.flatten_cons, byteLength_append, byteLength_append] at hbytes
    have hline := length_le_byteLength line.text
    have hcolumn := column_le line.text (offset - line.start)
    dsimp only
    omega

private theorem lineColumn_of_le {text : List Char} {offset : Nat} (h : byteLength text ≤ offset) :
    (ofText text).lineColumn offset = (ofText text).lineColumn (byteLength text) := by
  obtain ⟨whole, line, rfl, hwhole, hline⟩ := exists_closed text
  have hlast {more : Nat} (hmore : byteLength line ≤ more) :
      (ofText (whole ++ line)).lineColumn (byteLength whole + more) =
        ⟨whole.count '\n' + 1, column line (byteLength line)⟩ := by
    have hlines : (ofText line).upTo more = [⟨0, line⟩] := by
      rw [upTo, ofText, lines_of_not_mem hline, placeLines, List.takeWhile_cons_of_pos (by simp)]
      rfl
    rw [lineColumn_append hwhole, lineColumn, hlines]
    simp only [List.getLast?_singleton, column, Nat.sub_zero, Nat.min_eq_right hmore, Nat.min_self]
    rfl
  rw [byteLength_append] at h ⊢
  obtain ⟨more, rfl⟩ := Nat.exists_eq_add_of_le (Nat.le_trans (Nat.le_add_right _ _) h)
  rw [hlast (by omega), hlast (Nat.le_refl _)]

private theorem lineColumn_eq (before after : List Char) :
    (ofText (before ++ after)).lineColumn (byteLength before) =
      ⟨before.count '\n' + 1, (afterLastFeed before).length⟩ := by
  obtain ⟨whole, line, rfl, hwhole, hline⟩ := exists_closed before
  rw [lineColumn_boundary hwhole hline, afterLastFeed_closed hwhole hline, List.count_append,
    List.count_eq_zero.mpr hline, Nat.add_zero]

private theorem before_of_lt {text : List Char} {offset later : Nat} (hoffset : Boundary text offset)
    (hlater : Boundary text later) (hlt : offset < later) :
    ((ofText text).lineColumn offset).Before ((ofText text).lineColumn later) := by
  have hline : ((ofText text).lineColumn offset).line ≤ ((ofText text).lineColumn later).line :=
    line_mono (ofText text) (Nat.le_of_lt hlt)
  rcases Nat.lt_or_eq_of_le hline with hbefore | hsame
  · exact .inl hbefore
  · exact .inr ⟨hsame, column_lt hoffset hlater hlt hsame.symm⟩

private theorem lineColumn_feeds (n offset : Nat) :
    (ofText (List.replicate n '\n')).lineColumn offset = ⟨min offset n + 1, 0⟩ := by
  have hboundary (before after : Nat) :
      (ofText (List.replicate (before + after) '\n')).lineColumn before = ⟨before + 1, 0⟩ := by
    have hclosed : Closed (List.replicate before '\n') := by
      cases before with
      | zero => exact .inl rfl
      | succ before => exact .inr ⟨_, List.replicate_succ'⟩
    have hlast := afterLastFeed_closed hclosed (List.not_mem_nil)
    have hplace := lineColumn_eq (List.replicate before '\n') (List.replicate after '\n')
    rw [List.append_nil] at hlast
    rw [byteLength_replicate, hlast, List.count_replicate_self, List.replicate_append_replicate] at hplace
    exact hplace
  rcases Nat.le_total offset n with hle | hle
  · obtain ⟨after, rfl⟩ := Nat.exists_eq_add_of_le hle
    rw [hboundary, Nat.min_eq_left hle]
  · have hend : byteLength (List.replicate n '\n') ≤ offset := by rwa [byteLength_replicate]
    rw [lineColumn_of_le hend, byteLength_replicate, Nat.min_eq_right hle]
    exact hboundary n 0

private theorem eq_feeds {text : List Char} (hbytes : byteLength text ≤ maxOffset) {offset : Nat}
    (hline : maxOffset < ((ofText text).lineColumn offset).line) : text = List.replicate maxOffset '\n' := by
  obtain ⟨earlier, line, later, hlines, -, -, hplace⟩ := exists_reached text offset
  have hcount : (ofText text).count = text.count '\n' + 1 := count_ofText text
  have hfeeds : text.count '\n' ≤ text.length := List.count_le_length
  have hlength := length_le_byteLength text
  rw [count, hlines, List.length_append, List.length_cons] at hcount
  rw [hplace] at hline
  dsimp only at hline
  have hall : text.count '\n' = text.length := by omega
  refine List.eq_replicate_iff.mpr ⟨by omega, fun c hmem => ?_⟩
  exact (List.count_eq_length.mp hall c hmem).symm

private theorem lineColumn?_eq {text : List Char} (h : byteLength text ≤ maxOffset) (offset : Nat) :
    (ofText text).lineColumn? offset =
      if text = List.replicate maxOffset '\n' ∧ maxOffset ≤ offset then none
      else some ((ofText text).lineColumn offset) := by
  unfold lineColumn?
  dsimp only
  by_cases hlast : text = List.replicate maxOffset '\n' ∧ maxOffset ≤ offset
  · rw [if_pos hlast]
    obtain ⟨rfl, hle⟩ := hlast
    rw [lineColumn_feeds, Nat.min_eq_right hle]
    exact if_neg (Nat.not_succ_le_self maxOffset)
  · rw [if_neg hlast]
    refine if_pos (Nat.not_lt.mp fun hline => ?_)
    obtain rfl := eq_feeds h hline
    rw [lineColumn_feeds] at hline
    dsimp only at hline
    exact hlast ⟨rfl, by omega⟩

/-- Lines and columns are exact and keep the order of the text. Between two characters the line counts the line
feeds before the offset and the column the characters after the last of them, so of two such offsets the
earlier one is shown before the other. An offset past the end is shown where the text ends. The lines start at
offsets that increase, and for every offset at all, also one within a character, the search for its line ends
at one that is there and that starts no later than the offset. The line, counted from zero, and the column are
at most the number of bytes of the text. So for a text whose bytes can be counted in 32 bits the same place comes
out in numbers of 32 bits, for every offset but the end of the text that is all line feeds and as long as a text
may be: the line there has no number. -/
theorem lineColumn_exact (text : List Char) :
    (∀ before after, text = before ++ after → (ofText text).lineColumn (byteLength before) =
      ⟨before.count '\n' + 1, (afterLastFeed before).length⟩) ∧
    (∀ offset later, Boundary text offset → Boundary text later → offset < later →
      ((ofText text).lineColumn offset).Before ((ofText text).lineColumn later)) ∧
    (∀ offset, byteLength text ≤ offset →
      (ofText text).lineColumn offset = (ofText text).lineColumn (byteLength text)) ∧
    (ofText text).lines.Pairwise (fun line next => line.start < next.start) ∧
    (∀ offset, (∃ earlier line later, Finds text offset earlier line later) ∧
      ((ofText text).lineColumn offset).line ≤ byteLength text + 1 ∧
      ((ofText text).lineColumn offset).column ≤ byteLength text) ∧
    (byteLength text ≤ maxOffset → ∀ offset, (ofText text).lineColumn? offset =
      if text = List.replicate maxOffset '\n' ∧ maxOffset ≤ offset then none
      else some ((ofText text).lineColumn offset)) := by
  refine ⟨?_, fun _ _ => before_of_lt, fun _ => lineColumn_of_le, pairwise_placeLines 0 text,
    fun offset => ⟨exists_finds text offset, lineColumn_le text offset⟩, lineColumn?_eq⟩
  rintro before after rfl
  exact lineColumn_eq before after

/-- The text of as many line feeds as it may have bytes. The offset at its end stands between characters, and the
line there has no number of 32 bits. -/
theorem lineColumn?_behind_feeds :
    let text := List.replicate maxOffset '\n'
    byteLength text = maxOffset ∧ Boundary text maxOffset ∧
      (ofText text).lineColumn maxOffset = ⟨maxOffset + 1, 0⟩ ∧ (ofText text).lineColumn? maxOffset = none := by
  intro text
  have hbytes : byteLength text = maxOffset := byteLength_replicate maxOffset
  refine ⟨hbytes, ⟨text, [], (List.append_nil text).symm, hbytes⟩, ?_, ?_⟩
  · rw [lineColumn_feeds, Nat.min_self]
  · rw [lineColumn?_eq (Nat.le_of_eq hbytes), if_pos ⟨rfl, Nat.le_refl _⟩]

/-- Around a line feed, within a character of two bytes and past the end. -/
example : [2, 3, 4, 5, 9].map (ofText "ab\nπx".toList).lineColumn =
    [⟨1, 2⟩, ⟨2, 0⟩, ⟨2, 0⟩, ⟨2, 1⟩, ⟨2, 2⟩] := by
  decide

end LineIndex

end Text

end QuantumScript
