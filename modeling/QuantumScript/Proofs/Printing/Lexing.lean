import QuantumScript.Lexeme
/-!
# Lexemes that stand apart

A lexeme is cut off alike whether the text ends after it or goes on with a space or a line break.
Scanners that stop at a space or a line break do not look behind it; strings are looked at up to
their closing quote.
-/

namespace QuantumScript

namespace Lexeme

open Text

/-- Characters that a text may go on with after a lexeme without becoming a part of it. -/
def isBreak (c : Char) : Bool := c = ' ' || c = '\n' || c = '\r'

/-- The text is empty or goes on with a break. -/
def Apart (tail : List Char) : Prop := ∀ c rest, tail = c :: rest → isBreak c = true

theorem apart_nil : Apart [] := nofun

theorem apart_cons {c : Char} (h : isBreak c = true) (rest : List Char) : Apart (c :: rest) := by
  intro d others heq
  obtain ⟨rfl, _⟩ := List.cons.inj heq
  exact h

/-- The scanner's test fails for all breaks. -/
def StopsAtBreak (p : Char → Bool) : Prop := p ' ' = false ∧ p '\n' = false ∧ p '\r' = false

theorem StopsAtBreak.apply {p : Char → Bool} (h : StopsAtBreak p) {c : Char}
    (hc : isBreak c = true) : p c = false := by
  obtain ⟨hspace, hfeed, hreturn⟩ := h
  simp only [isBreak, Bool.or_eq_true, decide_eq_true_eq] at hc
  rcases hc with (rfl | rfl) | rfl
  · exact hspace
  · exact hfeed
  · exact hreturn

section Scanners

variable {p : Char → Bool} {tail : List Char}

private theorem headIs_tail (hp : StopsAtBreak p) (htail : Apart tail) : headIs p tail = false := by
  cases tail with
  | nil => rfl
  | cons c rest => exact hp.apply (htail c rest rfl)

theorem headIs_append (hp : StopsAtBreak p) (htail : Apart tail) (cs : List Char) :
    headIs p (cs ++ tail) = headIs p cs := by
  cases cs with
  | nil => exact headIs_tail hp htail
  | cons c cs => rfl

theorem takeWhile_append (hp : StopsAtBreak p) (htail : Apart tail) (cs : List Char) :
    (cs ++ tail).takeWhile p = cs.takeWhile p := by
  induction cs with
  | nil =>
    cases tail with
    | nil => rfl
    | cons c rest =>
      have hc := hp.apply (htail c rest rfl)
      rw [List.nil_append, List.takeWhile_cons_of_neg (by simp [hc])]
      rfl
  | cons c cs ih =>
    rw [List.cons_append, List.takeWhile_cons, List.takeWhile_cons, ih]

theorem countWhile_append (hp : StopsAtBreak p) (htail : Apart tail) (cs : List Char) :
    countWhile p (cs ++ tail) = countWhile p cs := by
  rw [countWhile, takeWhile_append hp htail, countWhile]

theorem digits_append (hp : StopsAtBreak p) (htail : Apart tail) (cs : List Char) :
    digits p (cs ++ tail) = digits p cs := by
  have hrun : StopsAtBreak fun c => c = '_' || p c := by
    obtain ⟨hspace, hfeed, hreturn⟩ := hp
    refine ⟨?_, ?_, ?_⟩
    · simpa using hspace
    · simpa using hfeed
    · simpa using hreturn
  rw [digits, digits, takeWhile_append hrun htail]

theorem digits_le (p : Char → Bool) (cs : List Char) : (digits p cs).2 ≤ cs.length :=
  (List.takeWhile_sublist _).length_le

end Scanners

section Numbers

variable {tail : List Char}

theorem stops_isDigit : StopsAtBreak Char.isDigit := ⟨rfl, rfl, rfl⟩

private theorem stops_sign : StopsAtBreak fun c => c = '+' || c = '-' := ⟨rfl, rfl, rfl⟩

private theorem stops_exponent : StopsAtBreak fun c => c = 'e' || c = 'E' := ⟨rfl, rfl, rfl⟩

private theorem stops_imaginary : StopsAtBreak fun c => c = 'j' || c = 'J' := ⟨rfl, rfl, rfl⟩

private theorem stops_afterPoint : StopsAtBreak fun c => c = '.' || isIdentifierStart c :=
  ⟨rfl, rfl, rfl⟩

private theorem length_pos_of_headIs {p : Char → Bool} {cs : List Char}
    (h : headIs p cs = true) : 1 ≤ cs.length := by
  cases cs with
  | nil => cases h
  | cons c cs => simp

private theorem sign_le (cs : List Char) :
    (if headIs (fun c => c = '+' || c = '-') cs then 1 else 0) ≤ cs.length := by
  split
  · rename_i h
    exact length_pos_of_headIs h
  · exact Nat.zero_le _

theorem exponent_append (htail : Apart tail) {cs : List Char} (hcs : 1 ≤ cs.length) :
    exponent (cs ++ tail) = exponent cs := by
  have hdrop : (cs ++ tail).drop 1 = cs.drop 1 ++ tail := List.drop_append_of_le_length hcs
  have hsign := sign_le (cs.drop 1)
  simp only [exponent, hdrop, headIs_append stops_sign htail]
  rw [List.drop_append_of_le_length hsign, digits_append stops_isDigit htail]

private theorem exponent_le {cs : List Char} (hcs : 1 ≤ cs.length) : (exponent cs).2 ≤ cs.length := by
  have hsign := sign_le (cs.drop 1)
  have hdigits := digits_le Char.isDigit
    ((cs.drop 1).drop (if headIs (fun c => c = '+' || c = '-') (cs.drop 1) then 1 else 0))
  simp only [List.length_drop] at hsign hdigits
  simp only [exponent]
  omega

theorem exponentOr_append (htail : Apart tail) (form : LiteralForm) (cs : List Char) :
    exponentOr form (cs ++ tail) = exponentOr form cs := by
  rw [exponentOr, exponentOr, headIs_append stops_exponent htail]
  split
  · rename_i h
    exact exponent_append htail (length_pos_of_headIs h)
  · rfl

theorem exponentOr_le (form : LiteralForm) (cs : List Char) :
    (exponentOr form cs).2 ≤ cs.length := by
  rw [exponentOr]
  split
  · rename_i h
    exact exponent_le (length_pos_of_headIs h)
  · exact Nat.zero_le _

theorem imaginaryOr_append (htail : Apart tail) {number : LiteralForm × Nat} {cs : List Char}
    (h : number.2 ≤ cs.length) : imaginaryOr number (cs ++ tail) = imaginaryOr number cs := by
  rw [imaginaryOr, imaginaryOr, List.drop_append_of_le_length h,
    headIs_append stops_imaginary htail]

theorem decimal_point {cs rest : List Char}
    (h : cs.drop (digits Char.isDigit cs).2 = '.' :: rest) :
    decimal cs = imaginaryOr
      (if headIs (fun c => c = '.' || isIdentifierStart c) rest then
        (.integer .decimal false, (digits Char.isDigit cs).2)
      else
        lengthen ((digits Char.isDigit cs).2 + 1 + (digits Char.isDigit rest).2)
          (exponentOr (.float false) (rest.drop (digits Char.isDigit rest).2))) cs := by
  simp only [decimal, h]

theorem decimal_whole {cs : List Char}
    (h : ∀ rest, cs.drop (digits Char.isDigit cs).2 ≠ '.' :: rest) :
    decimal cs = imaginaryOr
      (lengthen (digits Char.isDigit cs).2
        (exponentOr (.integer .decimal false) (cs.drop (digits Char.isDigit cs).2))) cs := by
  rw [decimal]
  dsimp only
  split
  · rename_i rest heq
    exact absurd heq (h rest)
  · rfl

private theorem not_point_append (htail : Apart tail) {cs : List Char}
    (h : ∀ rest, cs ≠ '.' :: rest) (rest : List Char) : cs ++ tail ≠ '.' :: rest := by
  cases cs with
  | nil =>
    intro heq
    exact absurd (htail '.' rest heq) (by decide)
  | cons c cs =>
    intro heq
    obtain ⟨rfl, _⟩ := List.cons.inj heq
    exact h cs rfl

theorem decimal_append (htail : Apart tail) (cs : List Char) :
    decimal (cs ++ tail) = decimal cs := by
  have hwhole := digits_append stops_isDigit htail cs
  have hle := digits_le Char.isDigit cs
  have hdrop : (cs ++ tail).drop (digits Char.isDigit cs).2 =
      cs.drop (digits Char.isDigit cs).2 ++ tail := List.drop_append_of_le_length hle
  by_cases hpoint : ∃ rest, cs.drop (digits Char.isDigit cs).2 = '.' :: rest
  · obtain ⟨rest, hrest⟩ := hpoint
    have hlength : (digits Char.isDigit cs).2 + (rest.length + 1) = cs.length := by
      have := congrArg List.length hrest
      rw [List.length_drop, List.length_cons] at this
      omega
    have hfraction := digits_le Char.isDigit rest
    have hexponent := exponentOr_le (.float false) (rest.drop (digits Char.isDigit rest).2)
    have hrest' : (cs ++ tail).drop (digits Char.isDigit (cs ++ tail)).2 = '.' :: (rest ++ tail) := by
      rw [hwhole, hdrop, hrest, List.cons_append]
    rw [decimal_point hrest, decimal_point hrest', hwhole,
      headIs_append stops_afterPoint htail, digits_append stops_isDigit htail,
      List.drop_append_of_le_length hfraction, exponentOr_append htail]
    apply imaginaryOr_append htail
    rw [List.length_drop] at hexponent
    split
    · exact hle
    · simp only [lengthen]
      omega
  · have hnot : ∀ rest, cs.drop (digits Char.isDigit cs).2 ≠ '.' :: rest :=
      fun rest heq => hpoint ⟨rest, heq⟩
    have hexponent := exponentOr_le (.integer .decimal false)
      (cs.drop (digits Char.isDigit cs).2)
    have hnot' : ∀ rest, (cs ++ tail).drop (digits Char.isDigit (cs ++ tail)).2 ≠ '.' :: rest := by
      rw [hwhole, hdrop]
      exact not_point_append htail hnot
    rw [decimal_whole hnot, decimal_whole hnot', hwhole, hdrop, exponentOr_append htail]
    apply imaginaryOr_append htail
    rw [List.length_drop] at hexponent
    simp only [lengthen]
    omega

private theorem stops_isDigitOf (radix : Radix) : StopsAtBreak (isDigitOf radix) := by
  cases radix <;> exact ⟨rfl, rfl, rfl⟩

private theorem radix?_tail (htail : Apart tail) {c : Char} {rest : List Char}
    (h : tail = c :: rest) : radix? c = none := by
  have hc := htail c rest h
  simp only [isBreak, Bool.or_eq_true, decide_eq_true_eq] at hc
  rcases hc with (rfl | rfl) | rfl <;> rfl

theorem number_append (htail : Apart tail) (c : Char) (cs : List Char) :
    number c (cs ++ tail) = number c cs := by
  cases cs with
  | nil =>
    cases tail with
    | nil => rfl
    | cons d rest =>
      have hradix : (if c = '0' then radix? d else none) = none := by
        rw [radix?_tail htail rfl]
        split <;> rfl
      rw [List.nil_append, number, hradix]
      exact decimal_append htail []
  | cons letter rest =>
    rw [List.cons_append, number, number]
    split
    · rw [digits_append (stops_isDigitOf _) htail]
    · exact decimal_append htail (letter :: rest)

theorem pointed_append (htail : Apart tail) (cs : List Char) :
    pointed (cs ++ tail) = pointed cs := by
  have hle := digits_le Char.isDigit cs
  have hexponent := exponentOr_le (.float false) (cs.drop (digits Char.isDigit cs).2)
  rw [List.length_drop] at hexponent
  simp only [pointed, digits_append stops_isDigit htail,
    List.drop_append_of_le_length hle, exponentOr_append htail]
  apply imaginaryOr_append htail
  simp only [lengthen]
  omega

end Numbers

section Strings

variable {tail : List Char} {quote : Char}

private theorem terminated_of_lengthen {n m : Nat} {piece : Bool × Nat}
    (h : lengthen n piece = (true, m)) : ∃ k, piece = (true, k) ∧ m = k + n := by
  obtain ⟨terminated, k⟩ := piece
  simp only [lengthen, Prod.mk.injEq] at h
  obtain ⟨rfl, rfl⟩ := h
  exact ⟨k, rfl, rfl⟩

theorem singleQuoted_append (cs : List Char) {n : Nat} (h : singleQuoted quote cs = (true, n)) :
    singleQuoted quote (cs ++ tail) = (true, n) := by
  fun_induction singleQuoted quote cs generalizing n with
  | case1 => cases h
  | case2 cs =>
    unfold singleQuoted
    rw [← h]
    exact if_pos rfl
  | case3 => cases h
  | case4 c cs hquote ih =>
    obtain ⟨k, hk, rfl⟩ := terminated_of_lengthen h
    unfold singleQuoted
    simp only [List.cons_append, if_neg hquote, if_pos, ih hk]
    rfl
  | case5 => cases h
  | case6 c cs hquote hescape hbreak ih =>
    obtain ⟨k, hk, rfl⟩ := terminated_of_lengthen h
    unfold singleQuoted
    simp only [List.cons_append, if_neg hquote, if_neg hescape, if_neg hbreak, ih hk]
    rfl

theorem tripleQuoted_append (run : Nat) (cs : List Char) {n : Nat}
    (h : tripleQuoted quote run cs = (true, n)) :
    tripleQuoted quote run (cs ++ tail) = (true, n) := by
  fun_induction tripleQuoted quote run cs generalizing n with
  | case1 => cases h
  | case2 => cases h
  | case3 run c cs ih =>
    obtain ⟨k, hk, rfl⟩ := terminated_of_lengthen h
    unfold tripleQuoted
    simp only [List.cons_append, if_pos, ih hk]
    rfl
  | case4 cs hescape =>
    unfold tripleQuoted
    simp only [List.cons_append, if_neg hescape, if_pos, h]
  | case5 run cs hrun hescape ih =>
    obtain ⟨k, hk, rfl⟩ := terminated_of_lengthen h
    unfold tripleQuoted
    simp only [List.cons_append, if_neg hescape, if_pos, if_neg hrun, ih hk]
    rfl
  | case6 run c cs hescape hquote ih =>
    obtain ⟨k, hk, rfl⟩ := terminated_of_lengthen h
    unfold tripleQuoted
    simp only [List.cons_append, if_neg hescape, if_neg hquote, ih hk]
    rfl

theorem ne_quote (hquote : isQuote quote = true) {c : Char} (hc : isBreak c = true) :
    c ≠ quote := by
  intro heq
  simp only [isBreak, Bool.or_eq_true, decide_eq_true_eq] at hc
  simp only [isQuote, Bool.or_eq_true, decide_eq_true_eq] at hquote
  rcases hquote with rfl | rfl <;> rcases hc with (rfl | rfl) | rfl <;> cases heq

theorem quoted_single {cs : List Char} {piece : Bool × Nat}
    (hsingle : singleQuoted quote cs = piece)
    (h : ∀ a b rest, cs = a :: b :: rest → ¬(a = quote && b = quote) = true) :
    quoted quote cs = (.quoted piece.1 false, piece.2) := by
  unfold quoted
  split
  · rename_i a b rest
    rw [if_neg (h a b rest rfl), hsingle]
  · rw [hsingle]

theorem quoted_triple {rest : List Char} {piece : Bool × Nat}
    (htriple : tripleQuoted quote 0 rest = piece) :
    quoted quote (quote :: quote :: rest) = (.quoted piece.1 true, piece.2 + 2) := by
  unfold quoted
  simp only [decide_true, Bool.and_self, if_true, htriple]

theorem quoted_append (htail : Apart tail) (hquote : isQuote quote = true) {cs : List Char}
    {triple : Bool} {n : Nat} (h : quoted quote cs = (.quoted true triple, n)) :
    quoted quote (cs ++ tail) = (.quoted true triple, n) := by
  by_cases hopens : ∃ rest, cs = quote :: quote :: rest
  · obtain ⟨rest, rfl⟩ := hopens
    rw [quoted_triple rfl] at h
    simp only [Prod.mk.injEq, LiteralForm.quoted.injEq] at h
    obtain ⟨⟨hclosed, rfl⟩, rfl⟩ := h
    rw [List.cons_append, List.cons_append,
      quoted_triple (tripleQuoted_append 0 rest (Prod.ext hclosed rfl))]
  · have hsingle : ∀ a b rest, cs = a :: b :: rest → ¬(a = quote && b = quote) = true := by
      intro a b rest heq hboth
      simp only [Bool.and_eq_true, decide_eq_true_eq] at hboth
      exact hopens ⟨rest, by rw [heq, hboth.1, hboth.2]⟩
    have hnext : ∀ a b rest, cs ++ tail = a :: b :: rest →
        ¬(a = quote && b = quote) = true := by
      intro a b rest heq hboth
      simp only [Bool.and_eq_true, decide_eq_true_eq] at hboth
      obtain ⟨rfl, rfl⟩ := hboth
      match cs, heq with
      | [], heq => exact ne_quote hquote (htail _ _ heq) rfl
      | [_], heq => exact ne_quote hquote (htail _ _ (List.cons.inj heq).2) rfl
      | _ :: _ :: others, heq =>
        obtain ⟨rfl, heq⟩ := List.cons.inj heq
        obtain ⟨rfl, _⟩ := List.cons.inj heq
        exact hsingle _ _ _ rfl (by simp)
    rw [quoted_single rfl hsingle] at h
    simp only [Prod.mk.injEq, LiteralForm.quoted.injEq] at h
    obtain ⟨⟨hclosed, rfl⟩, rfl⟩ := h
    rw [quoted_single (singleQuoted_append cs (Prod.ext hclosed rfl)) hnext]

/-- The form is not that of a string that breaks off early. -/
def isClosed : LiteralForm → Bool
  | .quoted terminated _ => terminated
  | _ => true

private theorem quoted_closed (quote : Char) (cs : List Char) :
    ∃ terminated triple, (quoted quote cs).1 = .quoted terminated triple := by
  unfold quoted
  split
  · split <;> exact ⟨_, _, rfl⟩
  · exact ⟨_, _, rfl⟩

private theorem quoted_append_of_closed (htail : Apart tail) (hquote : isQuote quote = true)
    {cs : List Char} (h : isClosed (quoted quote cs).1 = true) :
    quoted quote (cs ++ tail) = quoted quote cs := by
  obtain ⟨terminated, triple, hform⟩ := quoted_closed quote cs
  rw [hform] at h
  obtain rfl : terminated = true := h
  have heq : quoted quote cs = (.quoted true triple, (quoted quote cs).2) := Prod.ext hform rfl
  rw [heq]
  exact quoted_append htail hquote heq

private theorem isQuote_of_break {c : Char} (hc : isBreak c = true) :
    isQuote c = false ∧ isStringMark c = false := by
  simp only [isBreak, Bool.or_eq_true, decide_eq_true_eq] at hc
  rcases hc with (rfl | rfl) | rfl <;> exact ⟨rfl, rfl⟩

theorem markedString?_append (htail : Apart tail) (c : Char) (cs : List Char)
    (h : ∀ piece, markedString? c cs = some piece → isClosed piece.1 = true) :
    markedString? c (cs ++ tail) = markedString? c cs := by
  unfold markedString? at h ⊢
  by_cases hmark : isStringMark c = true
  · simp only [hmark, if_true] at h ⊢
    cases cs with
    | nil =>
      cases tail with
      | nil => rfl
      | cons q rest =>
        have hq := isQuote_of_break (htail q rest rfl)
        simp only [List.nil_append, hq.1, hq.2, Bool.false_and]
        cases rest <;> rfl
    | cons q rest =>
      simp only [List.cons_append] at h ⊢
      by_cases hq : isQuote q = true
      · simp only [hq, if_true] at h ⊢
        rw [quoted_append_of_closed htail hq]
        exact h (lengthen 1 (quoted q rest)) rfl
      · simp only [hq, Bool.false_eq_true, if_false] at h ⊢
        cases rest with
        | nil =>
          cases tail with
          | nil => rfl
          | cons r others =>
            have hr := isQuote_of_break (htail r others rfl)
            simp only [List.nil_append, hr.1, Bool.and_false]
            rfl
        | cons r others =>
          simp only [List.cons_append] at h ⊢
          by_cases hr : (isStringMark q && isQuote r) = true
          · simp only [hr, if_true] at h ⊢
            rw [quoted_append_of_closed htail (Bool.and_eq_true_iff.mp hr).2]
            exact h (lengthen 2 (quoted r others)) rfl
          · simp only [hr, Bool.false_eq_true, if_false]
  · simp only [hmark, Bool.false_eq_true, if_false]

end Strings

section Symbols

variable {tail : List Char}

private theorem isPrefixOf_append (htail : Apart tail) {spelling : List Char}
    (h : spelling.all fun c => !isBreak c) (cs : List Char) :
    spelling.isPrefixOf (cs ++ tail) = spelling.isPrefixOf cs := by
  induction spelling generalizing cs with
  | nil => simp
  | cons d spelling ih =>
    simp only [List.all_cons, Bool.and_eq_true, Bool.not_eq_true'] at h
    cases cs with
    | nil =>
      cases tail with
      | nil => rfl
      | cons c rest =>
        have hne : (d == c) = false := by
          rw [beq_eq_false_iff_ne]
          rintro rfl
          rw [htail d rest rfl] at h
          cases h.1
        simp [List.isPrefixOf, hne]
    | cons c cs => simp only [List.cons_append, List.isPrefixOf, ih h.2]

private theorem find?_congr {α : Type} {p q : α → Bool} {entries : List α}
    (h : ∀ entry ∈ entries, p entry = q entry) : entries.find? p = entries.find? q := by
  induction entries with
  | nil => rfl
  | cons entry entries ih =>
    rw [List.find?_cons, List.find?_cons, h entry (by simp),
      ih fun other hmem => h other (by simp [hmem])]

private theorem spellings_solid :
    ∀ entry ∈ symbolSpellings, (entry.1.all fun c => !isBreak c) = true := by
  decide

theorem symbol?_append (htail : Apart tail) (cs : List Char) :
    symbol? (cs ++ tail) = symbol? cs := by
  unfold symbol?
  rw [find?_congr]
  intro entry hmem
  exact isPrefixOf_append htail (spellings_solid entry hmem) cs

end Symbols

/-- Names, symbols and literals that do not break off early. -/
def Kind.isSolid : Kind → Bool
  | .word | .symbol _ => true
  | .literal form => isClosed form
  | _ => false

section Measure

variable {tail : List Char} {c : Char} {cs : List Char}

private theorem filler?_not_solid {piece : Kind × Nat} (h : filler? c cs = some piece) :
    piece.1.isSolid = false := by
  unfold filler? at h
  repeat' split at h
  all_goals first
    | (cases h; rfl)
    | cases h
    | (obtain ⟨n, _, rfl⟩ := Option.map_eq_some_iff.mp h; rfl)

private theorem filler?_none (hc : c ≠ '\r' ∧ c ≠ '\\') (h : filler? c cs = none)
    (others : List Char) : filler? c others = none := by
  unfold filler? at h ⊢
  repeat' split at h
  all_goals simp_all

private theorem stops_isIdentifierPart : StopsAtBreak isIdentifierPart := ⟨rfl, rfl, rfl⟩

theorem operand?_append (htail : Apart tail)
    (h : ∀ piece, operand? c cs = some piece → piece.1.isSolid = true) :
    operand? c (cs ++ tail) = operand? c cs := by
  unfold operand? at h ⊢
  rw [headIs_append stops_isDigit htail]
  by_cases hstart : isIdentifierStart c = true
  · simp only [hstart, if_true] at h ⊢
    rw [markedString?_append htail c cs, countWhile_append stops_isIdentifierPart htail]
    intro piece hpiece
    rw [hpiece] at h
    exact h _ rfl
  · simp only [hstart, Bool.false_eq_true, if_false] at h ⊢
    split
    · rw [number_append htail]
    · rename_i hdigit
      rw [if_neg hdigit] at h
      split
      · rw [pointed_append htail]
      · rename_i hpoint
        rw [if_neg hpoint] at h
        split
        · rename_i hquote
          rw [if_pos hquote] at h
          rw [quoted_append_of_closed htail hquote (h _ rfl)]
        · rfl

private theorem unknown_of_escape (hc : c = '\r' ∨ c = '\\') (h : filler? c cs = none) :
    measure c cs = (.unknown, 0) := by
  unfold measure
  rw [h]
  rcases hc with rfl | rfl <;> rfl

/-- A solid lexeme is cut off alike before a break. -/
theorem measure_append (htail : Apart tail) {kind : Kind} {n : Nat}
    (h : measure c cs = (kind, n)) (hsolid : kind.isSolid = true) :
    measure c (cs ++ tail) = (kind, n) := by
  have hfiller : filler? c cs = none := by
    cases hf : filler? c cs with
    | none => rfl
    | some piece =>
      unfold measure at h
      rw [hf] at h
      obtain rfl : piece = (kind, n) := h
      rw [filler?_not_solid hf] at hsolid
      cases hsolid
  have hescape : c ≠ '\r' ∧ c ≠ '\\' := by
    constructor
    all_goals
      intro hc
      rw [unknown_of_escape (by simp [hc]) hfiller] at h
      cases h
      cases hsolid
  unfold measure at h ⊢
  rw [filler?_none hescape hfiller]
  rw [hfiller] at h
  dsimp only at h ⊢
  rw [operand?_append htail, ← List.cons_append, symbol?_append htail]
  · exact h
  · intro piece hpiece
    rw [hpiece] at h
    obtain rfl : piece = (kind, n) := h
    exact hsolid

/-- A lexeme is cut off, and then the lexemes of what is left. -/
theorem ofText_cons {kind : Kind} {n : Nat} (h : measure c cs = (kind, n)) :
    ofText (c :: cs) = ⟨kind, c :: cs.take n⟩ :: ofText (cs.drop n) := by
  rw [ofText, h]

end Measure

end Lexeme

end QuantumScript
