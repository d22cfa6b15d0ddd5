import QuantumScript.Proofs.Printing.Lexing
/-!
# Lexemes before a line end

A lexeme that ends before a line feed is cut off alike whatever comes after the line feed. So a text
that ends with a line break has the same lexemes when it goes on, and those of what follows are cut
off as if nothing stood before it.
-/

namespace QuantumScript

namespace Lexeme

open Text

section Strings

variable {quote c : Char} {run : Nat}

theorem singleQuoted_escape (h : ¬ '\\' = quote) (d : Char) (rest : List Char) :
    singleQuoted quote ('\\' :: d :: rest) = lengthen 2 (singleQuoted quote rest) := by
  conv => lhs; unfold singleQuoted
  rw [if_neg h, if_pos rfl]

theorem singleQuoted_stop (hquote : ¬c = quote) (hescape : ¬c = '\\')
    (hbreak : (c = '\n' || c = '\r') = true) (rest : List Char) :
    singleQuoted quote (c :: rest) = (false, 0) := by
  unfold singleQuoted
  rw [if_neg hquote, if_neg hescape, if_pos hbreak]

theorem singleQuoted_plain (hquote : ¬c = quote) (hescape : ¬c = '\\')
    (hbreak : ¬(c = '\n' || c = '\r') = true) (rest : List Char) :
    singleQuoted quote (c :: rest) = lengthen 1 (singleQuoted quote rest) := by
  conv => lhs; unfold singleQuoted
  rw [if_neg hquote, if_neg hescape, if_neg hbreak]

theorem tripleQuoted_escape (run : Nat) (d : Char) (rest : List Char) :
    tripleQuoted quote run ('\\' :: d :: rest) = lengthen 2 (tripleQuoted quote 0 rest) := by
  conv => lhs; unfold tripleQuoted
  rw [if_pos rfl]

theorem tripleQuoted_plain (run : Nat) (hescape : ¬c = '\\') (hquote : ¬c = quote)
    (rest : List Char) :
    tripleQuoted quote run (c :: rest) = lengthen 1 (tripleQuoted quote 0 rest) := by
  conv => lhs; unfold tripleQuoted
  rw [if_neg hescape, if_neg hquote]

theorem tripleQuoted_quote (hescape : ¬quote = '\\') (rest : List Char) :
    tripleQuoted quote run (quote :: rest) =
      if run = 2 then (true, 1) else lengthen 1 (tripleQuoted quote (run + 1) rest) := by
  conv => lhs; unfold tripleQuoted
  rw [if_neg hescape, if_pos rfl]

end Strings

section Feed

variable {u v w : List Char} {quote c : Char}

private theorem apart_feed (v : List Char) : Apart ('\n' :: v) := apart_cons rfl v

private theorem countWhile_feed {p : Char → Bool} (hp : p '\n' = false) (u v : List Char) :
    countWhile p (u ++ '\n' :: v) = countWhile p u := by
  unfold countWhile
  induction u with
  | nil => simp [hp]
  | cons d u ih =>
    simp only [List.cons_append, List.takeWhile_cons]
    split
    · rw [List.length_cons, List.length_cons, ih]
    · rfl

private theorem singleQuoted_feed (hquote : '\n' ≠ quote)
    (h : (singleQuoted quote (u ++ '\n' :: v)).2 ≤ u.length) :
    singleQuoted quote (u ++ '\n' :: w) = singleQuoted quote (u ++ '\n' :: v) := by
  fun_induction singleQuoted quote u with
  | case1 =>
    rw [List.nil_append, List.nil_append, singleQuoted_stop hquote (by decide) rfl,
      singleQuoted_stop hquote (by decide) rfl]
  | case2 cs =>
    unfold singleQuoted
    simp only [List.cons_append, if_pos]
  | case3 hslash =>
    rw [List.cons_append, List.nil_append, singleQuoted_escape hslash] at h
    simp only [lengthen, List.length_cons, List.length_nil] at h
    omega
  | case4 d rest hslash ih =>
    simp only [List.cons_append, singleQuoted_escape hslash, lengthen, List.length_cons] at h ⊢
    rw [ih (by omega)]
  | case5 d cs hquote' hescape hbreak =>
    rw [List.cons_append, List.cons_append, singleQuoted_stop hquote' hescape hbreak,
      singleQuoted_stop hquote' hescape hbreak]
  | case6 d cs hquote' hescape hbreak ih =>
    simp only [List.cons_append, singleQuoted_plain hquote' hescape hbreak, lengthen,
      List.length_cons] at h ⊢
    rw [ih (by omega)]

private theorem tripleQuoted_feed (hquote : '\n' ≠ quote) (run : Nat)
    (h : (tripleQuoted quote run (u ++ '\n' :: v)).2 ≤ u.length) :
    tripleQuoted quote run (u ++ '\n' :: w) = tripleQuoted quote run (u ++ '\n' :: v) := by
  fun_induction tripleQuoted quote run u with
  | case1 =>
    rw [List.nil_append, tripleQuoted_plain _ (by decide) hquote] at h
    simp only [lengthen, List.length_nil] at h
    omega
  | case2 =>
    rw [List.cons_append, List.nil_append, tripleQuoted_escape] at h
    simp only [lengthen, List.length_cons, List.length_nil] at h
    omega
  | case3 run d rest ih =>
    simp only [List.cons_append, tripleQuoted_escape, lengthen, List.length_cons] at h ⊢
    rw [ih (by omega)]
  | case4 cs hescape =>
    rw [List.cons_append, List.cons_append, tripleQuoted_quote hescape,
      tripleQuoted_quote hescape, if_pos rfl, if_pos rfl]
  | case5 run cs hrun hescape ih =>
    simp only [List.cons_append, tripleQuoted_quote hescape, if_neg hrun, lengthen,
      List.length_cons] at h ⊢
    rw [ih (by omega)]
  | case6 run d cs hescape hquote' ih =>
    simp only [List.cons_append, tripleQuoted_plain _ hescape hquote', lengthen,
      List.length_cons] at h ⊢
    rw [ih (by omega)]

private theorem quoted_feed (hquote : isQuote quote = true)
    (h : (quoted quote (u ++ '\n' :: v)).2 ≤ u.length) :
    quoted quote (u ++ '\n' :: w) = quoted quote (u ++ '\n' :: v) := by
  have hfeed : '\n' ≠ quote := ne_quote hquote rfl
  by_cases hopens : ∃ rest, u = quote :: quote :: rest
  · obtain ⟨rest, rfl⟩ := hopens
    simp only [List.cons_append, quoted_triple rfl, List.length_cons] at h ⊢
    rw [tripleQuoted_feed (v := v) hfeed 0 (by omega)]
  · have hsingle (x : List Char) : ∀ a b rest, u ++ '\n' :: x = a :: b :: rest →
        ¬(a = quote && b = quote) = true := by
      intro a b rest heq hboth
      simp only [Bool.and_eq_true, decide_eq_true_eq] at hboth
      obtain ⟨rfl, rfl⟩ := hboth
      cases u with
      | nil => exact hfeed (List.cons.inj heq).1
      | cons d u =>
        obtain ⟨rfl, heq⟩ := List.cons.inj heq
        cases u with
        | nil => exact hfeed (List.cons.inj heq).1
        | cons e u =>
          obtain ⟨rfl, _⟩ := List.cons.inj heq
          exact hopens ⟨u, rfl⟩
    rw [quoted_single rfl (hsingle v)] at h
    rw [quoted_single rfl (hsingle v), quoted_single rfl (hsingle w), singleQuoted_feed hfeed h]

private theorem markedString?_feed
    (h : ∀ piece, markedString? c (u ++ '\n' :: v) = some piece → piece.2 ≤ u.length) :
    markedString? c (u ++ '\n' :: w) = markedString? c (u ++ '\n' :: v) := by
  unfold markedString? at h ⊢
  by_cases hmark : isStringMark c = true
  · simp only [hmark, if_true] at h ⊢
    cases u with
    | nil =>
      have hfeed : isQuote '\n' = false ∧ isStringMark '\n' = false := ⟨rfl, rfl⟩
      simp only [List.nil_append, hfeed, Bool.false_and]
      cases v <;> cases w <;> rfl
    | cons q u =>
      simp only [List.cons_append, List.length_cons] at h ⊢
      by_cases hq : isQuote q = true
      · simp only [hq, if_true] at h ⊢
        have hlength := h _ rfl
        simp only [lengthen] at hlength
        rw [quoted_feed (v := v) hq (by omega)]
      · simp only [hq, Bool.false_eq_true, if_false] at h ⊢
        cases u with
        | nil =>
          have hfeed : isQuote '\n' = false := rfl
          simp only [List.nil_append, hfeed, Bool.and_false]
          rfl
        | cons r u =>
          simp only [List.cons_append, List.length_cons] at h ⊢
          by_cases hr : (isStringMark q && isQuote r) = true
          · simp only [hr, if_true] at h ⊢
            have hlength := h _ rfl
            simp only [lengthen] at hlength
            rw [quoted_feed (v := v) (Bool.and_eq_true_iff.mp hr).2 (by omega)]
          · simp only [hr, Bool.false_eq_true, if_false]
  · simp only [hmark, Bool.false_eq_true, if_false]

private theorem lineBreak?_feed : lineBreak? (u ++ '\n' :: w) = lineBreak? (u ++ '\n' :: v) := by
  cases u with
  | nil => rfl
  | cons d u =>
    cases u with
    | nil =>
      by_cases hfeed : d = '\n'
      · rw [hfeed]
        rfl
      · by_cases hreturn : d = '\r'
        · rw [hreturn]
          rfl
        · simp [lineBreak?, hfeed, hreturn]
    | cons e u =>
      by_cases hfeed : d = '\n'
      · rw [hfeed]
        rfl
      · by_cases hreturn : d = '\r' ∧ e = '\n'
        · rw [hreturn.1, hreturn.2]
          rfl
        · simp_all [lineBreak?]

private theorem filler?_feed : filler? c (u ++ '\n' :: w) = filler? c (u ++ '\n' :: v) := by
  have hhead : headIs (· = '\n') (u ++ '\n' :: w) = headIs (· = '\n') (u ++ '\n' :: v) := by
    cases u <;> rfl
  unfold filler?
  rw [countWhile_feed rfl, countWhile_feed (v := v) rfl, countWhile_feed (p := isBlank) rfl,
    countWhile_feed (p := isBlank) (v := v) rfl, hhead, lineBreak?_feed]

private theorem operand?_feed
    (h : ∀ piece, operand? c (u ++ '\n' :: v) = some piece → piece.2 ≤ u.length) :
    operand? c (u ++ '\n' :: w) = operand? c (u ++ '\n' :: v) := by
  unfold operand? at h ⊢
  rw [headIs_append stops_isDigit (apart_feed w), headIs_append stops_isDigit (apart_feed v)]
  by_cases hstart : isIdentifierStart c = true
  · simp only [hstart, if_true] at h ⊢
    rw [markedString?_feed, countWhile_feed rfl, countWhile_feed (v := v) rfl]
    intro piece hpiece
    rw [hpiece] at h
    exact h _ rfl
  · simp only [hstart, Bool.false_eq_true, if_false] at h ⊢
    split
    · rw [number_append (apart_feed w), number_append (apart_feed v)]
    · rename_i hdigit
      rw [if_neg hdigit, headIs_append stops_isDigit (apart_feed v)] at h
      split
      · rw [pointed_append (apart_feed w), pointed_append (apart_feed v)]
      · rename_i hpoint
        rw [if_neg hpoint] at h
        split
        · rename_i hquote
          rw [if_pos hquote] at h
          rw [quoted_feed hquote (h _ rfl)]
        · rfl

private theorem measure_feed (h : (measure c (u ++ '\n' :: v)).2 ≤ u.length) :
    measure c (u ++ '\n' :: w) = measure c (u ++ '\n' :: v) := by
  unfold measure at h ⊢
  rw [filler?_feed (v := v)]
  cases hfiller : filler? c (u ++ '\n' :: v) with
  | some piece => rfl
  | none =>
    rw [hfiller] at h
    dsimp only at h ⊢
    rw [operand?_feed (v := v), ← List.cons_append, ← List.cons_append,
      symbol?_append (apart_feed w), symbol?_append (apart_feed v)]
    intro piece hpiece
    rw [hpiece] at h
    exact h

end Feed

private theorem operand?_ne_lineBreak (c : Char) (cs : List Char) (n : Nat) :
    operand? c cs ≠ some (.lineBreak, n) := by
  unfold operand?
  repeat' split
  all_goals simp

private theorem measure_lineBreak {c : Char} {cs : List Char} {n : Nat}
    (h : measure c cs = (.lineBreak, n)) :
    c = '\n' ∧ n = 0 ∨ c = '\r' ∧ n = 1 ∧ headIs (· = '\n') cs = true := by
  unfold measure at h
  cases hfiller : filler? c cs with
  | some piece =>
    rw [hfiller] at h
    obtain rfl : piece = (.lineBreak, n) := h
    unfold filler? at hfiller
    repeat' split at hfiller
    all_goals simp_all
  | none =>
    rw [hfiller] at h
    cases hoperand : operand? c cs with
    | some piece =>
      rw [hoperand] at h
      obtain rfl : piece = (.lineBreak, n) := h
      exact absurd hoperand (operand?_ne_lineBreak c cs n)
    | none =>
      rw [hoperand] at h
      dsimp only at h
      split at h <;> cases h

private theorem measure_lineBreak_append {c : Char} {cs : List Char} {n : Nat}
    (h : measure c cs = (.lineBreak, n)) (tail : List Char) :
    measure c (cs ++ tail) = (.lineBreak, n) ∧ n ≤ cs.length := by
  rcases measure_lineBreak h with ⟨rfl, rfl⟩ | ⟨rfl, rfl, hhead⟩
  · exact ⟨rfl, Nat.zero_le _⟩
  · cases cs with
    | nil => cases hhead
    | cons d cs =>
      obtain rfl : d = '\n' := by simpa [headIs] using hhead
      exact ⟨rfl, by simp⟩

/-- No lexemes, or the last of them is a line break. -/
def EndsLine (lexemes : List Lexeme) : Prop := ∀ last ∈ lexemes.getLast?, last.kind = .lineBreak

private theorem endsLine_tail {lexeme : Lexeme} {lexemes : List Lexeme}
    (h : EndsLine (lexeme :: lexemes)) : EndsLine lexemes := by
  intro last hlast
  apply h
  rw [List.getLast?_cons, Option.mem_def.mp hlast]
  rfl

theorem ends_feed {text : List Char} (h : EndsLine (ofText text)) (hne : text ≠ []) :
    ∃ before, text = before ++ ['\n'] := by
  fun_induction ofText text with
  | case1 => exact absurd rfl hne
  | case2 c cs kind n hmeasure ih =>
    by_cases hrest : cs.drop n = []
    · rw [hrest, ofText] at h
      obtain rfl : kind = .lineBreak := h _ rfl
      rcases measure_lineBreak hmeasure with ⟨rfl, rfl⟩ | ⟨rfl, rfl, hhead⟩
      · exact ⟨[], by rw [show cs = [] from hrest]; rfl⟩
      · cases cs with
        | nil => cases hhead
        | cons d cs =>
          obtain rfl : d = '\n' := by simpa [headIs] using hhead
          exact ⟨['\r'], by rw [show cs = [] from hrest]; rfl⟩
    · obtain ⟨before, hbefore⟩ := ih (endsLine_tail h) hrest
      refine ⟨c :: (cs.take n ++ before), ?_⟩
      rw [List.cons_append, List.append_assoc, ← hbefore, List.take_append_drop]

/-- A text that ends with a line break keeps its lexemes when it goes on, and what follows is cut into
lexemes of its own. -/
theorem ofText_append {text : List Char} (h : EndsLine (ofText text)) (tail : List Char) :
    ofText (text ++ tail) = ofText text ++ ofText tail := by
  fun_induction ofText text with
  | case1 => rfl
  | case2 c cs kind n hmeasure ih =>
    have hwhole : measure c (cs ++ tail) = (kind, n) ∧ n ≤ cs.length := by
      by_cases hrest : cs.drop n = []
      · rw [hrest, ofText] at h
        obtain rfl : kind = .lineBreak := h _ rfl
        exact measure_lineBreak_append hmeasure tail
      · obtain ⟨before, hbefore⟩ := ends_feed (endsLine_tail h) hrest
        have hn : n < cs.length := by
          rw [List.drop_eq_nil_iff] at hrest
          omega
        have hcs : cs = (cs.take n ++ before) ++ ['\n'] := by
          rw [List.append_assoc, ← hbefore, List.take_append_drop]
        have hle : n ≤ (cs.take n ++ before).length := by
          rw [List.length_append, List.length_take]
          omega
        rw [hcs] at hmeasure ⊢
        rw [List.append_assoc, List.singleton_append, ← hmeasure]
        refine ⟨measure_feed ?_, ?_⟩
        · rw [hmeasure]
          exact hle
        · rw [List.length_append]
          omega
    rw [List.cons_append, ofText_cons hwhole.1, List.take_append_of_le_length hwhole.2,
      List.drop_append_of_le_length hwhole.2, ih (endsLine_tail h), List.cons_append]

end Lexeme

end QuantumScript
