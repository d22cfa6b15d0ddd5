import Mathlib
import QuantumScript.Proofs.Lexing.Alone
import QuantumScript.Proofs.Seams.Lexemes
/-!
# Both spellings of line breaks

A line break is a line feed, or a carriage return and a line feed. A text in which every line feed gets a
carriage return before it is cut into the same lexemes, with one exception: a backslash in a string between
single quotes takes the next character with it, which is the carriage return alone, and then the string
breaks off at the line feed.
-/

namespace QuantumScript

namespace Text

/-- The text with a carriage return before each line feed. -/
def withReturns (text : List Char) : List Char :=
  text.flatMap fun c => if c = '\n' then ['\r', '\n'] else [c]

@[simp] theorem withReturns_nil : withReturns [] = [] := rfl

private theorem withReturns_feed (cs : List Char) :
    withReturns ('\n' :: cs) = '\r' :: '\n' :: withReturns cs := rfl

theorem withReturns_cons {c : Char} (h : c ≠ '\n') (cs : List Char) :
    withReturns (c :: cs) = c :: withReturns cs := by
  rw [withReturns, List.flatMap_cons, if_neg h]
  rfl

theorem withReturns_append (text more : List Char) :
    withReturns (text ++ more) = withReturns text ++ withReturns more :=
  List.flatMap_append

/-- Nothing changes within a line. -/
theorem withReturns_line {text : List Char} (h : '\n' ∉ text) : withReturns text = text := by
  induction text with
  | nil => rfl
  | cons c cs ih =>
    rw [List.mem_cons, not_or] at h
    rw [withReturns_cons (Ne.symm h.1), ih h.2]

end Text

namespace Lexeme

open Text

/-- A measured piece at the front of a text, measured in the text with carriage returns. -/
def respell {α : Type} (cs : List Char) (piece : α × Nat) : α × Nat :=
  (piece.1, (withReturns (cs.take piece.2)).length)

private theorem respell_line {α : Type} {cs : List Char} {piece : α × Nat} (hle : piece.2 ≤ cs.length)
    (h : '\n' ∉ cs.take piece.2) : respell cs piece = piece := by
  rw [respell, withReturns_line h, List.length_take, Nat.min_eq_left hle]

private theorem respell_lengthen {α : Type} {c : Char} (h : c ≠ '\n') (cs : List Char) (piece : α × Nat) :
    respell (c :: cs) (lengthen 1 piece) = lengthen 1 (respell cs piece) := by
  rw [respell, lengthen, List.take_succ_cons, withReturns_cons h]
  rfl

private theorem respell_feed {α : Type} (cs : List Char) (piece : α × Nat) :
    respell ('\n' :: cs) (lengthen 1 piece) = lengthen 2 (respell cs piece) := by
  rw [respell, lengthen, List.take_succ_cons, withReturns_feed]
  rfl

private theorem lengthen_lengthen {α : Type} (m n : Nat) (piece : α × Nat) :
    lengthen m (lengthen n piece) = lengthen (n + m) piece := by
  rw [lengthen, lengthen, lengthen, Nat.add_assoc]

section Scanners

variable {p : Char → Bool}

private theorem exists_line (cs : List Char) :
    ∃ line rest, cs = line ++ rest ∧ '\n' ∉ line ∧ Apart rest ∧ withReturns cs = line ++ withReturns rest ∧
      Apart (withReturns rest) := by
  induction cs with
  | nil => exact ⟨[], [], rfl, List.not_mem_nil, apart_nil, rfl, apart_nil⟩
  | cons c cs ih =>
    by_cases hc : c = '\n'
    · rw [hc]
      exact ⟨[], '\n' :: cs, rfl, List.not_mem_nil, apart_cons rfl _, rfl, apart_cons rfl _⟩
    · obtain ⟨line, rest, hcs, hline, hrest, hreturns, hapart⟩ := ih
      refine ⟨c :: line, rest, by rw [hcs]; rfl, ?_, hrest, ?_, hapart⟩
      · rw [List.mem_cons, not_or]
        exact ⟨Ne.symm hc, hline⟩
      · rw [withReturns_cons hc, hreturns]
        rfl

private theorem takeWhile_withReturns (hfeed : p '\n' = false) (hreturn : p '\r' = false) (cs : List Char) :
    (withReturns cs).takeWhile p = cs.takeWhile p := by
  induction cs with
  | nil => rfl
  | cons c cs ih =>
    by_cases hc : c = '\n'
    · rw [hc, withReturns_feed, List.takeWhile_cons_of_neg (by simp [hreturn]),
        List.takeWhile_cons_of_neg (by simp [hfeed])]
    · rw [withReturns_cons hc, List.takeWhile_cons, List.takeWhile_cons, ih]

private theorem respell_countWhile {α : Type} (hfeed : p '\n' = false) (hreturn : p '\r' = false) (answer : α)
    (cs : List Char) :
    (answer, countWhile p (withReturns cs)) = respell cs (answer, countWhile p cs) := by
  have htake : cs.take (countWhile p cs) = cs.takeWhile p := by
    rw [countWhile]
    exact (List.prefix_iff_eq_take.mp (List.takeWhile_prefix p)).symm
  rw [respell_line]
  · rw [countWhile, takeWhile_withReturns hfeed hreturn, countWhile]
  · exact (List.takeWhile_sublist p).length_le
  · dsimp only
    rw [htake]
    intro hmem
    have hp := List.all_eq_true.mp List.all_takeWhile _ hmem
    rw [hfeed] at hp
    cases hp

private theorem headIs_withReturns (hfeed : p '\n' = false) (hreturn : p '\r' = false) (cs : List Char) :
    headIs p (withReturns cs) = headIs p cs := by
  cases cs with
  | nil => rfl
  | cons c cs =>
    by_cases hc : c = '\n'
    · rw [hc, withReturns_feed, headIs, headIs, hfeed, hreturn]
    · rw [withReturns_cons hc]
      rfl

end Scanners

section Numbers

private theorem imaginaryOr_le {number : LiteralForm × Nat} {cs : List Char} (h : number.2 ≤ cs.length) :
    (imaginaryOr number cs).2 ≤ cs.length := by
  unfold imaginaryOr
  split
  · rename_i hhead
    cases hdrop : cs.drop number.2 with
    | nil =>
      rw [hdrop] at hhead
      cases hhead
    | cons c rest =>
      have hlength := congrArg List.length hdrop
      rw [List.length_drop, List.length_cons] at hlength
      dsimp only
      omega
  · exact h

private theorem decimal_le (cs : List Char) : (decimal cs).2 ≤ cs.length := by
  have hwhole := digits_le Char.isDigit cs
  by_cases hpoint : ∃ rest, cs.drop (digits Char.isDigit cs).2 = '.' :: rest
  · obtain ⟨rest, hrest⟩ := hpoint
    have hlength := congrArg List.length hrest
    rw [List.length_drop, List.length_cons] at hlength
    have hfraction := digits_le Char.isDigit rest
    have hexponent := exponentOr_le (.float false) (rest.drop (digits Char.isDigit rest).2)
    rw [List.length_drop] at hexponent
    rw [decimal_point hrest]
    apply imaginaryOr_le
    split
    · exact hwhole
    · simp only [lengthen]
      omega
  · have hexponent := exponentOr_le (.integer .decimal false) (cs.drop (digits Char.isDigit cs).2)
    rw [List.length_drop] at hexponent
    rw [decimal_whole fun rest heq => hpoint ⟨rest, heq⟩]
    apply imaginaryOr_le
    simp only [lengthen]
    omega

private theorem number_le (c : Char) (cs : List Char) : (number c cs).2 ≤ cs.length := by
  unfold number
  split
  · rename_i letter rest
    split
    · rename_i radix _
      have hdigits := digits_le (isDigitOf radix) rest
      dsimp only
      rw [List.length_cons]
      omega
    · exact decimal_le _
  · exact decimal_le _

private theorem pointed_le (cs : List Char) : (pointed cs).2 ≤ cs.length := by
  have hfraction := digits_le Char.isDigit cs
  have hexponent := exponentOr_le (.float false) (cs.drop (digits Char.isDigit cs).2)
  rw [List.length_drop] at hexponent
  unfold pointed
  apply imaginaryOr_le
  simp only [lengthen]
  omega

private theorem respell_within {α : Type} {scan : List Char → α × Nat} (hle : ∀ cs, (scan cs).2 ≤ cs.length)
    (happend : ∀ tail, Apart tail → ∀ cs, scan (cs ++ tail) = scan cs) (cs : List Char) :
    scan (withReturns cs) = respell cs (scan cs) := by
  obtain ⟨line, rest, rfl, hline, hrest, hreturns, hapart⟩ := exists_line cs
  have hscan := happend rest hrest line
  have hwithin := hle line
  rw [hreturns, happend _ hapart, hscan, respell_line]
  · rw [List.length_append]
    omega
  · rw [List.take_append_of_le_length hwithin]
    exact fun hmem => hline (List.mem_of_mem_take hmem)

end Numbers

section Strings

variable {quote : Char}

private theorem singleQuoted_withReturns (hquote : isQuote quote = true) {cs : List Char}
    (h : '\n' ∉ cs.take (singleQuoted quote cs).2) :
    singleQuoted quote (withReturns cs) = respell cs (singleQuoted quote cs) := by
  have hfeed : '\n' ≠ quote := ne_quote hquote rfl
  have hreturn : '\r' ≠ quote := ne_quote hquote rfl
  fun_induction singleQuoted quote cs with
  | case1 => rfl
  | case2 cs =>
    rw [withReturns_cons hfeed.symm, respell_line (by simp) h]
    unfold singleQuoted
    rw [if_pos rfl]
  | case3 hslash =>
    have hlast : singleQuoted quote ['\\'] = (false, 1) := by
      unfold singleQuoted
      rw [if_neg hslash, if_pos rfl]
    exact hlast
  | case4 d rest hslash ih =>
    simp only [lengthen, List.take_succ_cons, List.mem_cons, not_or] at h
    have hd : d ≠ '\n' := Ne.symm h.2.1
    rw [withReturns_cons (by decide), withReturns_cons hd, singleQuoted_escape hslash, ih h.2.2]
    change _ = respell ('\\' :: d :: rest) (lengthen 1 (lengthen 1 (singleQuoted quote rest)))
    rw [respell_lengthen (by decide), respell_lengthen hd, lengthen_lengthen]
  | case5 c cs hquote' hescape hbreak =>
    by_cases hc : c = '\n'
    · rw [hc, withReturns_feed, singleQuoted_stop hreturn (by decide) rfl]
      rfl
    · rw [withReturns_cons hc, singleQuoted_stop hquote' hescape hbreak]
      rfl
  | case6 c cs hquote' hescape hbreak ih =>
    simp only [lengthen, List.take_succ_cons, List.mem_cons, not_or] at h
    have hc : c ≠ '\n' := Ne.symm h.1
    rw [withReturns_cons hc, singleQuoted_plain hquote' hescape hbreak, ih h.2, respell_lengthen hc]

private theorem tripleQuoted_withReturns (hquote : isQuote quote = true) (run : Nat) (cs : List Char) :
    tripleQuoted quote run (withReturns cs) = respell cs (tripleQuoted quote run cs) := by
  have hfeed : '\n' ≠ quote := ne_quote hquote rfl
  have hreturn : '\r' ≠ quote := ne_quote hquote rfl
  fun_induction tripleQuoted quote run cs with
  | case1 => rfl
  | case2 => rfl
  | case3 run d rest ih =>
    change _ = respell ('\\' :: d :: rest) (lengthen 1 (lengthen 1 (tripleQuoted quote 0 rest)))
    rw [withReturns_cons (by decide), respell_lengthen (by decide)]
    by_cases hd : d = '\n'
    · rw [hd, withReturns_feed, tripleQuoted_escape, tripleQuoted_plain _ (by decide) hfeed, ih,
        respell_feed, lengthen_lengthen, lengthen_lengthen]
    · rw [withReturns_cons hd, tripleQuoted_escape, ih, respell_lengthen hd, lengthen_lengthen]
  | case4 cs hescape =>
    rw [withReturns_cons hfeed.symm, tripleQuoted_quote hescape, if_pos rfl, respell_line]
    · simp
    · rw [List.take_succ_cons, List.take_zero, List.mem_singleton]
      exact hfeed
  | case5 run cs hrun hescape ih =>
    rw [withReturns_cons hfeed.symm, tripleQuoted_quote hescape, if_neg hrun, ih,
      respell_lengthen hfeed.symm]
  | case6 run c cs hescape hquote' ih =>
    by_cases hc : c = '\n'
    · rw [hc, withReturns_feed, tripleQuoted_plain _ (by decide) hreturn,
        tripleQuoted_plain _ (by decide) hfeed, ih, respell_feed, lengthen_lengthen]
    · rw [withReturns_cons hc, tripleQuoted_plain _ hescape hquote', ih, respell_lengthen hc]

/-- The exception: a line feed within a string between single quotes. -/
def holdsBreak (cs : List Char) (form : LiteralForm) (n : Nat) : Prop :=
  (∃ terminated, form = .quoted terminated false) ∧ '\n' ∈ cs.take n

private theorem quoted_withReturns (hquote : isQuote quote = true) {cs : List Char}
    (h : ¬holdsBreak cs (quoted quote cs).1 (quoted quote cs).2) :
    quoted quote (withReturns cs) = respell cs (quoted quote cs) := by
  have hfeed : '\n' ≠ quote := ne_quote hquote rfl
  have hreturn : '\r' ≠ quote := ne_quote hquote rfl
  by_cases hopens : ∃ rest, cs = quote :: quote :: rest
  · obtain ⟨rest, rfl⟩ := hopens
    rw [withReturns_cons hfeed.symm, withReturns_cons hfeed.symm, quoted_triple rfl, quoted_triple rfl,
      tripleQuoted_withReturns hquote, respell, respell, List.take_succ_cons, List.take_succ_cons,
      withReturns_cons hfeed.symm, withReturns_cons hfeed.symm]
    rfl
  · have hsingle : ∀ a b rest, cs = a :: b :: rest → ¬(a = quote && b = quote) = true := by
      intro a b rest heq hboth
      simp only [Bool.and_eq_true, decide_eq_true_eq] at hboth
      exact hopens ⟨rest, by rw [heq, hboth.1, hboth.2]⟩
    have hsingle' : ∀ a b rest, withReturns cs = a :: b :: rest → ¬(a = quote && b = quote) = true := by
      intro a b rest heq hboth
      simp only [Bool.and_eq_true, decide_eq_true_eq] at hboth
      obtain ⟨rfl, rfl⟩ := hboth
      match cs, heq with
      | c :: cs, heq =>
        by_cases hc : c = '\n'
        · rw [hc, withReturns_feed] at heq
          exact hreturn (List.cons.inj heq).1
        · rw [withReturns_cons hc] at heq
          obtain ⟨rfl, heq⟩ := List.cons.inj heq
          match cs, heq with
          | d :: cs, heq =>
            by_cases hd : d = '\n'
            · rw [hd, withReturns_feed] at heq
              exact hreturn (List.cons.inj heq).1
            · rw [withReturns_cons hd] at heq
              obtain ⟨rfl, -⟩ := List.cons.inj heq
              exact hsingle _ _ _ rfl (by simp)
    rw [quoted_single rfl hsingle] at h ⊢
    have hclear : '\n' ∉ cs.take (singleQuoted quote cs).2 := fun hmem => h ⟨⟨_, rfl⟩, hmem⟩
    rw [quoted_single rfl hsingle', singleQuoted_withReturns hquote hclear]
    rfl

theorem holdsBreak_cons {c : Char} {cs : List Char} {form : LiteralForm} {n : Nat}
    (h : holdsBreak cs form n) : holdsBreak (c :: cs) form (n + 1) := by
  refine ⟨h.1, ?_⟩
  rw [List.take_succ_cons]
  exact List.mem_cons_of_mem c h.2

private theorem markedString?_withReturns {c : Char} {cs : List Char}
    (h : ∀ piece, markedString? c cs = some piece → ¬holdsBreak cs piece.1 piece.2) :
    markedString? c (withReturns cs) = (markedString? c cs).map (respell cs) := by
  unfold markedString? at h ⊢
  by_cases hmark : isStringMark c = true
  · simp only [hmark, if_true] at h ⊢
    cases cs with
    | nil => rfl
    | cons q rest =>
      by_cases hfeed : q = '\n'
      · rw [hfeed, withReturns_feed]
        cases rest <;> rfl
      · rw [withReturns_cons hfeed]
        by_cases hq : isQuote q = true
        · simp only [hq, if_true] at h ⊢
          have hplain : ¬holdsBreak rest (quoted q rest).1 (quoted q rest).2 :=
            fun hbreak => h _ rfl (holdsBreak_cons hbreak)
          rw [quoted_withReturns hq hplain, Option.map_some, respell_lengthen hfeed]
        · simp only [hq, Bool.false_eq_true, if_false] at h ⊢
          cases rest with
          | nil => rfl
          | cons r rest =>
            by_cases hnext : r = '\n'
            · have hquote : isQuote '\n' = false ∧ isQuote '\r' = false := ⟨rfl, rfl⟩
              simp only [hnext, withReturns_feed, hquote, Bool.and_false, Bool.false_eq_true, if_false]
              rfl
            · rw [withReturns_cons hnext]
              dsimp only at h ⊢
              by_cases hr : (isStringMark q && isQuote r) = true
              · simp only [hr, if_true] at h ⊢
                have hplain : ¬holdsBreak rest (quoted r rest).1 (quoted r rest).2 :=
                  fun hbreak => h _ rfl (holdsBreak_cons (holdsBreak_cons hbreak))
                rw [quoted_withReturns (Bool.and_eq_true_iff.mp hr).2 hplain, Option.map_some]
                change _ = some (respell (q :: r :: rest) (lengthen 1 (lengthen 1 (quoted r rest))))
                rw [respell_lengthen hfeed, respell_lengthen hnext, lengthen_lengthen]
              · simp only [hr, Bool.false_eq_true, if_false]
                rfl
  · simp only [hmark, Bool.false_eq_true, if_false]
    rfl

end Strings

section Measure

variable {c : Char} {cs : List Char}

private theorem lineBreak?_withReturns (h : '\r' ∉ cs) :
    lineBreak? (withReturns cs) = (lineBreak? cs).map fun n => (withReturns (cs.take n)).length := by
  cases cs with
  | nil => rfl
  | cons d rest =>
    by_cases hfeed : d = '\n'
    · rw [hfeed, withReturns_feed]
      rfl
    · have hreturn : d ≠ '\r' := fun heq => h (by simp [heq])
      have hnone (more : List Char) : lineBreak? (d :: more) = none := by simp [lineBreak?, hfeed, hreturn]
      rw [withReturns_cons hfeed, hnone, hnone]
      rfl

private theorem filler?_withReturns (hfeed : c ≠ '\n') (hreturn : c ≠ '\r') (h : '\r' ∉ cs) :
    filler? c (withReturns cs) = (filler? c cs).map (respell cs) := by
  unfold filler?
  rw [if_neg hfeed, if_neg hreturn, if_neg hfeed, if_neg hreturn]
  split
  · rw [Option.map_some, respell_countWhile rfl rfl]
  · split
    · rw [lineBreak?_withReturns h, Option.map_map, Option.map_map]
      rfl
    · split
      · rw [Option.map_some, respell_countWhile rfl rfl]
      · rfl

private theorem operand?_withReturns
    (h : ∀ form n, operand? c cs = some (.literal form, n) → ¬holdsBreak cs form n) :
    operand? c (withReturns cs) = (operand? c cs).map (respell cs) := by
  unfold operand? at h ⊢
  rw [headIs_withReturns rfl rfl]
  by_cases hstart : isIdentifierStart c = true
  · simp only [hstart, if_true] at h ⊢
    have hmarked : ∀ piece, markedString? c cs = some piece → ¬holdsBreak cs piece.1 piece.2 := by
      intro piece hpiece
      rw [hpiece] at h
      exact h _ _ rfl
    rw [markedString?_withReturns hmarked]
    cases markedString? c cs with
    | none => exact congrArg some (respell_countWhile rfl rfl Kind.word cs)
    | some piece => rfl
  · simp only [hstart, Bool.false_eq_true, if_false] at h ⊢
    split
    · rw [respell_within (number_le c) fun tail htail => number_append htail c]
      rfl
    · rename_i hdigit
      rw [if_neg hdigit] at h
      split
      · rw [respell_within pointed_le fun tail htail => pointed_append htail]
        rfl
      · rename_i hpoint
        rw [if_neg hpoint] at h
        split
        · rename_i hquote
          rw [if_pos hquote] at h
          rw [quoted_withReturns hquote (h _ _ rfl)]
          rfl
        · rfl

private theorem symbol?_le {symbol : Symbol} {n : Nat} (h : symbol? cs = some (symbol, n)) : n ≤ cs.length := by
  obtain ⟨entry, hfind, heq⟩ := Option.map_eq_some_iff.mp h
  obtain ⟨-, rfl⟩ := Prod.mk.inj heq
  have hprefix := List.find?_some hfind
  exact (List.isPrefixOf_iff_prefix.mp hprefix).length_le

/-- The symbol that starts with `c`, or an unknown character. -/
def symbolOr (c : Char) (cs : List Char) : Kind × Nat :=
  match symbol? (c :: cs) with
  | some (symbol, n) => (.symbol symbol, n - 1)
  | none => (.unknown, 0)

private theorem measure_eq (c : Char) (cs : List Char) :
    measure c cs = ((filler? c cs).or (operand? c cs)).getD (symbolOr c cs) := by
  unfold measure symbolOr
  cases filler? c cs with
  | some piece => rfl
  | none => cases operand? c cs <;> rfl

/-- Whichever of the three sorts a lexeme is of. -/
theorem measure_cases {kind : Kind} {n : Nat} (h : measure c cs = (kind, n)) :
    filler? c cs = some (kind, n) ∨ operand? c cs = some (kind, n) ∨ symbolOr c cs = (kind, n) := by
  rw [measure_eq] at h
  cases hfiller : filler? c cs with
  | some piece =>
    rw [hfiller] at h
    exact .inl (congrArg some h)
  | none =>
    rw [hfiller, Option.none_or] at h
    cases hoperand : operand? c cs with
    | some piece =>
      rw [hoperand] at h
      exact .inr (.inl (congrArg some h))
    | none =>
      rw [hoperand] at h
      exact .inr (.inr h)

private theorem symbolOr_withReturns (c : Char) (cs : List Char) :
    symbolOr c (withReturns cs) = respell cs (symbolOr c cs) := by
  refine respell_within (fun cs => ?_) (fun tail htail cs => ?_) cs
  · unfold symbolOr
    split
    · rename_i symbol n heq
      have hle := symbol?_le heq
      rw [List.length_cons] at hle
      dsimp only
      omega
    · exact Nat.zero_le _
  · rw [symbolOr, symbolOr, ← List.cons_append, symbol?_append htail]

private theorem measure_withReturns (hfeed : c ≠ '\n') (hreturn : c ≠ '\r') (hcs : '\r' ∉ cs)
    (h : ∀ form n, measure c cs = (.literal form, n) → ¬holdsBreak cs form n) :
    measure c (withReturns cs) = respell cs (measure c cs) := by
  rw [measure_eq, filler?_withReturns hfeed hreturn hcs, symbolOr_withReturns, measure_eq]
  rw [measure_eq] at h
  cases hfiller : filler? c cs with
  | some piece => rfl
  | none =>
    rw [hfiller] at h
    have hoperand : ∀ form n, operand? c cs = some (.literal form, n) → ¬holdsBreak cs form n := by
      intro form n heq
      rw [heq] at h
      exact h form n rfl
    rw [operand?_withReturns hoperand]
    cases operand? c cs <;> rfl

end Measure

/-- The lexeme in the text with carriage returns. -/
def withReturns (lexeme : Lexeme) : Lexeme := ⟨lexeme.kind, Text.withReturns lexeme.text⟩

/-- A string between single quotes that holds a line feed. -/
def holdsFeed (lexeme : Lexeme) : Bool :=
  match lexeme.kind with
  | .literal (.quoted _ false) => lexeme.text.contains '\n'
  | _ => false

/-- A text without carriage returns and the text with one before each line feed are cut into the same
lexemes, unless a string between single quotes holds a line feed. -/
theorem ofText_withReturns {text : List Char} (hreturn : '\r' ∉ text)
    (h : (ofText text).any holdsFeed = false) :
    ofText (Text.withReturns text) = (ofText text).map withReturns := by
  fun_induction ofText text with
  | case1 => simp [ofText]
  | case2 c cs kind n hmeasure ih =>
    rw [List.mem_cons, not_or] at hreturn
    have hdrop : '\r' ∉ cs.drop n := fun hmem => hreturn.2 (List.mem_of_mem_drop hmem)
    rw [List.any_cons, Bool.or_eq_false_iff] at h
    have hrest := ih hdrop h.2
    by_cases hc : c = '\n'
    · subst hc
      have hfeed : measure '\n' cs = (.lineBreak, 0) := rfl
      obtain ⟨rfl, rfl⟩ : kind = .lineBreak ∧ n = 0 := by
        rw [hfeed] at hmeasure
        exact ⟨(Prod.mk.inj hmeasure).1.symm, (Prod.mk.inj hmeasure).2.symm⟩
      have hbreak : measure '\r' ('\n' :: Text.withReturns cs) = (.lineBreak, 1) := rfl
      rw [withReturns_feed, ofText_cons hbreak, List.map_cons, ← hrest]
      rfl
    · have hplain : ∀ form m, measure c cs = (.literal form, m) → ¬holdsBreak cs form m := by
        rintro form m heq ⟨⟨terminated, rfl⟩, hmem⟩
        obtain ⟨rfl, rfl⟩ := Prod.mk.inj (hmeasure.symm.trans heq)
        have hclear : (c :: cs.take n).contains '\n' = false := h.1
        rw [List.contains_eq_mem, decide_eq_false_iff_not] at hclear
        exact hclear (List.mem_cons_of_mem c hmem)
      have hsame := measure_withReturns hc (Ne.symm hreturn.1) hreturn.2 hplain
      rw [hmeasure] at hsame
      have hcs : Text.withReturns cs = Text.withReturns (cs.take n) ++ Text.withReturns (cs.drop n) := by
        rw [← withReturns_append, List.take_append_drop]
      have htext : (withReturns ⟨kind, c :: cs.take n⟩).text = c :: Text.withReturns (cs.take n) :=
        withReturns_cons hc _
      rw [withReturns_cons hc, ofText_cons hsame, List.map_cons, ← hrest, hcs, List.take_left,
        List.drop_left, ← htext]
      rfl

/-- In a string, a backslash before a line break takes the carriage return alone. -/
theorem kinds_ofText_withReturns_escaped :
    (ofText "'a\\\nc'".toList).map kind = [.literal (.quoted true false)] ∧
      (ofText (Text.withReturns "'a\\\nc'".toList)).map kind =
        [.literal (.quoted false false), .lineBreak, .word, .literal (.quoted false false)] := by
  constructor <;> cbv

end Lexeme

end QuantumScript
