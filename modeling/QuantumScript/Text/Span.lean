/-!
# Spans of bytes

Places in a text are counted in the bytes of its UTF-8 form. A span holds the bytes from its start
up to, not including, its stop. Cutting a text between two boundaries gives what stands between them.

Offsets, lines and columns are meant to be kept in 32 bits, so a text is meant to have at most `maxOffset`
bytes. The numbers here have no bound. For a text of that size they are the same, but for the one line that
`LineIndex.lineColumn?` has no number for.
-/

namespace QuantumScript

namespace Text

/-- The largest number of 32 bits. -/
def maxOffset : Nat := 4294967295

/-- Number of bytes of a text in UTF-8. -/
def byteLength : List Char → Nat
  | [] => 0
  | c :: cs => c.utf8Size + byteLength cs

@[simp] theorem byteLength_nil : byteLength [] = 0 := rfl

@[simp] theorem byteLength_cons (c : Char) (cs : List Char) :
    byteLength (c :: cs) = c.utf8Size + byteLength cs := rfl

@[simp] theorem byteLength_append (as bs : List Char) :
    byteLength (as ++ bs) = byteLength as + byteLength bs := by
  induction as with
  | nil => simp
  | cons c cs ih => simp [ih, Nat.add_assoc]

/-- The characters before a byte offset, unless the offset lies past the end or within a
character. -/
def takeBytes? : Nat → List Char → Option (List Char)
  | 0, _ => some []
  | _ + 1, [] => none
  | n + 1, c :: cs =>
    if c.utf8Size ≤ n + 1 then (takeBytes? (n + 1 - c.utf8Size) cs).map (c :: ·) else none

/-- The characters from a byte offset on, unless the offset lies past the end or within a
character. -/
def dropBytes? : Nat → List Char → Option (List Char)
  | 0, cs => some cs
  | _ + 1, [] => none
  | n + 1, c :: cs =>
    if c.utf8Size ≤ n + 1 then dropBytes? (n + 1 - c.utf8Size) cs else none

/-- The characters between two byte offsets, unless one of them lies past the end or within a
character. -/
def slice? (start stop : Nat) (cs : List Char) : Option (List Char) :=
  if start ≤ stop then (dropBytes? start cs).bind (takeBytes? (stop - start)) else none

@[simp] theorem takeBytes?_zero (cs : List Char) : takeBytes? 0 cs = some [] := by
  cases cs <;> rfl

@[simp] theorem dropBytes?_zero (cs : List Char) : dropBytes? 0 cs = some cs := by
  cases cs <;> rfl

private theorem utf8Size_add (c : Char) (n : Nat) :
    ∃ m, c.utf8Size + n = m + 1 ∧ c.utf8Size ≤ m + 1 ∧ m + 1 - c.utf8Size = n := by
  have := c.utf8Size_pos
  exact ⟨c.utf8Size + n - 1, by omega, by omega, by omega⟩

theorem takeBytes?_append (as bs : List Char) :
    takeBytes? (byteLength as) (as ++ bs) = some as := by
  induction as with
  | nil => simp
  | cons c cs ih =>
    obtain ⟨m, hm, hle, hsub⟩ := utf8Size_add c (byteLength cs)
    simp [hm, takeBytes?, hle, hsub, ih]

theorem dropBytes?_append (as bs : List Char) :
    dropBytes? (byteLength as) (as ++ bs) = some bs := by
  induction as with
  | nil => simp
  | cons c cs ih =>
    obtain ⟨m, hm, hle, hsub⟩ := utf8Size_add c (byteLength cs)
    simp [hm, dropBytes?, hle, hsub, ih]

/-- A slice between two boundaries is the text between them. -/
theorem slice?_append (as bs cs : List Char) :
    slice? (byteLength as) (byteLength as + byteLength bs) (as ++ (bs ++ cs)) = some bs := by
  simp [slice?, dropBytes?_append, takeBytes?_append]

/-- The pattern stands somewhere in the text. -/
def occurs (pattern : List Char) : List Char → Bool
  | [] => pattern.isEmpty
  | c :: cs => pattern.isPrefixOf (c :: cs) || occurs pattern cs

end Text

structure Span where
  start : Nat
  stop : Nat
  deriving DecidableEq, Repr

/-- The span that holds no byte, at an offset. -/
def Span.empty (offset : Nat) : Span := ⟨offset, offset⟩

end QuantumScript
