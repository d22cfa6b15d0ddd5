import QuantumScript.Text.Span
/-!
# Lines and columns

A line runs up to and including its line feed; what follows the last line feed is a line too, even
if it is empty. So the lines of a text together are the text. Lines are counted from one, columns
are characters counted from zero.
-/

namespace QuantumScript

namespace Text

/-- A line with the offset of its first byte. -/
structure Line where
  start : Nat
  text : List Char
  deriving DecidableEq, Repr

structure LineColumn where
  line : Nat
  column : Nat
  deriving DecidableEq, Repr

/-- Cuts a text into its lines, without offsets. -/
def lines : List Char → List (List Char)
  | [] => [[]]
  | c :: cs =>
    if c = '\n' then [c] :: lines cs
    else
      match lines cs with
      | [] => [[c]]
      | line :: rest => (c :: line) :: rest

theorem lines_ne_nil (text : List Char) : lines text ≠ [] := by
  cases text with
  | nil => simp [lines]
  | cons c cs =>
    unfold lines
    split
    · simp
    · split <;> simp

/-- Lines keep every character. -/
theorem flatten_lines (text : List Char) : (lines text).flatten = text := by
  induction text with
  | nil => rfl
  | cons c cs ih =>
    unfold lines
    split
    · simp [ih]
    · split
      next h => exact absurd h (lines_ne_nil cs)
      next line rest h => simpa [h] using ih

theorem length_lines (text : List Char) : (lines text).length = text.count '\n' + 1 := by
  induction text with
  | nil => rfl
  | cons c cs ih =>
    unfold lines
    split
    next h => simp [h, ih]
    next h =>
      split
      next h' => exact absurd h' (lines_ne_nil cs)
      next line rest h' => simpa [h', h, List.count_cons] using ih

/-- Gives each line its offset, the first one standing at `start`. -/
def placeLines (start : Nat) : List (List Char) → List Line
  | [] => []
  | line :: rest => ⟨start, line⟩ :: placeLines (start + byteLength line) rest

theorem length_placeLines (start : Nat) (texts : List (List Char)) :
    (placeLines start texts).length = texts.length := by
  induction texts generalizing start with
  | nil => rfl
  | cons line rest ih => simp [placeLines, ih]

/-- The lines of a text, for converting offsets. -/
structure LineIndex where
  lines : List Line
  deriving DecidableEq, Repr

namespace LineIndex

def ofText (text : List Char) : LineIndex := ⟨placeLines 0 (Text.lines text)⟩

def count (index : LineIndex) : Nat := index.lines.length

/-- There is one line more than there are line feeds. -/
theorem count_ofText (text : List Char) : (ofText text).count = text.count '\n' + 1 := by
  simp [ofText, count, length_placeLines, length_lines]

/-- The lines that start at or before an offset. -/
def upTo (index : LineIndex) (offset : Nat) : List Line :=
  index.lines.takeWhile fun line => line.start ≤ offset

/-- Column of a byte offset within a line: zero within a character, the end of the line past
it. -/
def column (line : List Char) (offset : Nat) : Nat :=
  match takeBytes? (min offset (byteLength line)) line with
  | some before => before.length
  | none => 0

def lineColumn (index : LineIndex) (offset : Nat) : LineColumn :=
  let reached := index.upTo offset
  match reached.getLast? with
  | some line => ⟨reached.length, column line.text (offset - line.start)⟩
  | none => ⟨1, 0⟩

/-- The line and the column of an offset in numbers of 32 bits. The lines above are counted first, and
there is nothing if the number of the line, which is one more, does not fit. -/
def lineColumn? (index : LineIndex) (offset : Nat) : Option LineColumn :=
  let place := index.lineColumn offset
  if place.line ≤ maxOffset then some place else none

end LineIndex

end Text

end QuantumScript
