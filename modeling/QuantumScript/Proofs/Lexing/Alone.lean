import Mathlib
import QuantumScript.Proofs.Printing.Lexing
import QuantumScript.Text.Span
/-!
# Lexemes on their own

Each scanner is measured again on what it has taken alone. A run of characters is as long there, and a look
at a character behind the piece finds nothing and decides as it did. So a lexeme that is cut out of its text
is the only lexeme of its own text, with the same kind.
-/

namespace QuantumScript

namespace Lexeme

open Text

section Runs

variable {p : Char → Bool} {cs : List Char} {k : Nat}

private theorem takeWhile_take (h : countWhile p cs ≤ k) : (cs.take k).takeWhile p = cs.takeWhile p := by
  induction cs generalizing k with
  | nil => rw [List.take_nil]
  | cons c cs ih =>
    unfold countWhile at h ih
    by_cases hc : p c = true
    · rw [List.takeWhile_cons_of_pos hc, List.length_cons] at h
      obtain ⟨k, rfl⟩ := Nat.exists_eq_add_of_le' (Nat.le_trans (Nat.succ_pos _) h)
      rw [List.take_succ_cons, List.takeWhile_cons_of_pos hc, List.takeWhile_cons_of_pos hc,
        ih (Nat.le_of_succ_le_succ h)]
    · rw [List.takeWhile_cons_of_neg hc]
      cases k with
      | zero => rfl
      | succ k => exact List.takeWhile_cons_of_neg hc

private theorem countWhile_take (h : countWhile p cs ≤ k) : countWhile p (cs.take k) = countWhile p cs := by
  rw [countWhile, takeWhile_take h, countWhile]

private theorem digits_take (h : (digits p cs).2 ≤ k) : digits p (cs.take k) = digits p cs := by
  unfold digits at h ⊢
  rw [takeWhile_take h]

private theorem headIs_take_of_not (h : headIs p cs = false) (k : Nat) : headIs p (cs.take k) = false := by
  cases cs with
  | nil => rw [List.take_nil]; rfl
  | cons c cs =>
    cases k with
    | zero => rfl
    | succ k => exact h

private theorem headIs_take (h : headIs p cs = true → 1 ≤ k) : headIs p (cs.take k) = headIs p cs := by
  cases hhead : headIs p cs with
  | false => exact headIs_take_of_not hhead k
  | true =>
    obtain ⟨k, rfl⟩ := Nat.exists_eq_add_of_le' (h hhead)
    cases cs with
    | nil => cases hhead
    | cons c cs => exact hhead

end Runs

section Numbers

variable {cs : List Char} {k : Nat} {form : LiteralForm}

private theorem exponent_take (h : (exponent cs).2 ≤ k) : exponent (cs.take k) = exponent cs := by
  unfold exponent at h ⊢
  dsimp only at h ⊢
  obtain ⟨k, rfl⟩ := Nat.exists_eq_add_of_le' (Nat.le_trans (Nat.le_add_left 1 _) h)
  have hdrop : (cs.take (k + 1)).drop 1 = (cs.drop 1).take k := by rw [List.drop_take, Nat.add_sub_cancel]
  rw [hdrop]
  generalize cs.drop 1 = rest at h ⊢
  have hsign : headIs (fun c => c = '+' || c = '-') (rest.take k) =
      headIs (fun c => c = '+' || c = '-') rest := by
    refine headIs_take fun hhead => ?_
    rw [if_pos hhead] at h
    omega
  rw [hsign, List.drop_take, digits_take (by omega)]

private theorem exponentOr_take (h : (exponentOr form cs).2 ≤ k) :
    exponentOr form (cs.take k) = exponentOr form cs := by
  unfold exponentOr at h ⊢
  have hhead : headIs (fun c => c = 'e' || c = 'E') (cs.take k) = headIs (fun c => c = 'e' || c = 'E') cs := by
    refine headIs_take fun hhead => ?_
    rw [if_pos hhead] at h
    unfold exponent at h
    dsimp only at h
    omega
  rw [hhead]
  split
  · rename_i hhead
    rw [if_pos hhead] at h
    exact exponent_take h
  · rfl

private theorem imaginaryOr_take {number : LiteralForm × Nat} (h : (imaginaryOr number cs).2 ≤ k) :
    imaginaryOr number (cs.take k) = imaginaryOr number cs := by
  unfold imaginaryOr at h ⊢
  have hhead : headIs (fun c => c = 'j' || c = 'J') ((cs.take k).drop number.2) =
      headIs (fun c => c = 'j' || c = 'J') (cs.drop number.2) := by
    rw [List.drop_take]
    refine headIs_take fun hhead => ?_
    rw [if_pos hhead] at h
    dsimp only at h
    omega
  rw [hhead]

private theorem le_imaginaryOr (number : LiteralForm × Nat) (cs : List Char) :
    number.2 ≤ (imaginaryOr number cs).2 := by
  unfold imaginaryOr
  split
  · exact Nat.le_succ _
  · exact Nat.le_refl _

private theorem decimal_take_whole {rest : List Char} (hrest : cs.drop (digits Char.isDigit cs).2 = '.' :: rest)
    (hhead : headIs (fun c => c = '.' || isIdentifierStart c) rest = true) :
    decimal cs = (.integer .decimal false, (digits Char.isDigit cs).2) ∧
      decimal (cs.take (digits Char.isDigit cs).2) = decimal cs := by
  have hwhole : decimal cs = (.integer .decimal false, (digits Char.isDigit cs).2) := by
    rw [decimal_point hrest, if_pos hhead, imaginaryOr, hrest]
    rfl
  refine ⟨hwhole, ?_⟩
  have hdigits : digits Char.isDigit (cs.take (digits Char.isDigit cs).2) = digits Char.isDigit cs :=
    digits_take (Nat.le_refl _)
  have hnone : (cs.take (digits Char.isDigit cs).2).drop (digits Char.isDigit cs).2 = [] := by
    rw [List.drop_take, Nat.sub_self, List.take_zero]
  have hpoint : ∀ rest, (cs.take (digits Char.isDigit cs).2).drop
      (digits Char.isDigit (cs.take (digits Char.isDigit cs).2)).2 ≠ '.' :: rest := by
    rw [hdigits, hnone]
    exact fun rest => (List.cons_ne_nil '.' rest).symm
  rw [hwhole, decimal_whole hpoint, hdigits, hnone, imaginaryOr]
  simp [exponentOr, headIs, lengthen, hnone]

private theorem decimal_take (cs : List Char) : decimal (cs.take (decimal cs).2) = decimal cs := by
  by_cases hpoint : ∃ rest, cs.drop (digits Char.isDigit cs).2 = '.' :: rest
  · obtain ⟨rest, hrest⟩ := hpoint
    by_cases hhead : headIs (fun c => c = '.' || isIdentifierStart c) rest = true
    · obtain ⟨hwhole, htake⟩ := decimal_take_whole hrest hhead
      rw [hwhole] at htake ⊢
      exact htake
    · have hpoint := decimal_point hrest
      rw [if_neg hhead] at hpoint
      generalize hk : (decimal cs).2 = k
      rw [hpoint] at hk
      have hle := Nat.le_trans (le_imaginaryOr _ cs) (Nat.le_of_eq hk)
      dsimp only [lengthen] at hle
      have hdigits : digits Char.isDigit (cs.take k) = digits Char.isDigit cs := digits_take (by omega)
      obtain ⟨more, hmore⟩ : ∃ more, k - (digits Char.isDigit cs).2 = more + 1 :=
        ⟨k - (digits Char.isDigit cs).2 - 1, by omega⟩
      have hrest' : (cs.take k).drop (digits Char.isDigit (cs.take k)).2 = '.' :: rest.take more := by
        rw [hdigits, List.drop_take, hrest, hmore, List.take_succ_cons]
      rw [decimal_point hrest', if_neg (by rw [headIs_take_of_not (Bool.eq_false_iff.mpr hhead)]; exact nofun),
        hdigits, digits_take (by omega), List.drop_take, exponentOr_take (by omega), hpoint]
      exact imaginaryOr_take (Nat.le_of_eq hk)
  · have hnot : ∀ rest, cs.drop (digits Char.isDigit cs).2 ≠ '.' :: rest := fun rest heq => hpoint ⟨rest, heq⟩
    have hwhole := decimal_whole hnot
    generalize hk : (decimal cs).2 = k
    rw [hwhole] at hk
    have hle := Nat.le_trans (le_imaginaryOr _ cs) (Nat.le_of_eq hk)
    dsimp only [lengthen] at hle
    have hdigits : digits Char.isDigit (cs.take k) = digits Char.isDigit cs := digits_take (by omega)
    have hnot' : ∀ rest, (cs.take k).drop (digits Char.isDigit (cs.take k)).2 ≠ '.' :: rest := by
      intro rest heq
      rw [hdigits, List.drop_take] at heq
      cases hdrop : cs.drop (digits Char.isDigit cs).2 with
      | nil =>
        rw [hdrop, List.take_nil] at heq
        cases heq
      | cons d others =>
        rw [hdrop] at heq
        cases hmore : k - (digits Char.isDigit cs).2 with
        | zero =>
          rw [hmore] at heq
          cases heq
        | succ more =>
          rw [hmore] at heq
          obtain ⟨rfl, _⟩ := List.cons.inj heq
          exact hnot others hdrop
    rw [decimal_whole hnot', hdigits, List.drop_take, exponentOr_take (by omega), hwhole]
    exact imaginaryOr_take (Nat.le_of_eq hk)

private theorem number_take (c : Char) (cs : List Char) : number c (cs.take (number c cs).2) = number c cs := by
  cases cs with
  | nil => rw [List.take_nil]
  | cons letter rest =>
    cases hradix : (if c = '0' then radix? letter else none) with
    | some radix =>
      have hnumber (more : List Char) : number c (letter :: more) =
          (.integer radix !(digits (isDigitOf radix) more).1, (digits (isDigitOf radix) more).2 + 1) := by
        rw [number, hradix]
      rw [hnumber rest, List.take_succ_cons, hnumber, digits_take (Nat.le_refl _)]
    | none =>
      have hnumber (more : List Char) : number c (letter :: more) = decimal (letter :: more) := by
        rw [number, hradix]
      rw [hnumber rest]
      have htake := decimal_take (letter :: rest)
      cases hk : (decimal (letter :: rest)).2 with
      | zero =>
        rw [hk] at htake
        rw [← htake]
        rfl
      | succ k =>
        rw [hk, List.take_succ_cons] at htake
        rw [List.take_succ_cons, hnumber, htake]

private theorem pointed_take (cs : List Char) : pointed (cs.take (pointed cs).2) = pointed cs := by
  generalize hk : (pointed cs).2 = k
  unfold pointed at hk ⊢
  dsimp only at hk ⊢
  have hle := Nat.le_trans (le_imaginaryOr _ cs) (Nat.le_of_eq hk)
  dsimp only [lengthen] at hle
  rw [digits_take (by omega), List.drop_take, exponentOr_take (by omega)]
  exact imaginaryOr_take (Nat.le_of_eq hk)

private theorem pointed_pos (h : headIs Char.isDigit cs = true) : 1 ≤ (pointed cs).2 := by
  have hrun : 1 ≤ (digits Char.isDigit cs).2 := by
    cases cs with
    | nil => cases h
    | cons d cs =>
      have hd : d.isDigit = true := h
      unfold digits
      rw [List.takeWhile_cons_of_pos (by rw [hd, Bool.or_true])]
      exact Nat.succ_pos _
  refine Nat.le_trans (Nat.le_trans hrun ?_) (le_imaginaryOr _ cs)
  exact Nat.le_add_left _ _

end Numbers

section Strings

variable {quote c : Char}

private theorem singleQuoted_take (cs : List Char) :
    singleQuoted quote (cs.take (singleQuoted quote cs).2) = singleQuoted quote cs := by
  fun_induction singleQuoted quote cs with
  | case1 => rfl
  | case2 cs =>
    rw [List.take_succ_cons, List.take_zero]
    unfold singleQuoted
    rw [if_pos rfl]
  | case3 hquote =>
    rw [List.take_succ_cons, List.take_zero]
    unfold singleQuoted
    rw [if_neg hquote, if_pos rfl]
  | case4 d rest hquote ih =>
    simp only [lengthen, List.take_succ_cons]
    conv => lhs; unfold singleQuoted
    rw [if_neg hquote, if_pos rfl]
    dsimp only
    rw [ih]
    rfl
  | case5 => rfl
  | case6 d cs hquote hescape hbreak ih =>
    simp only [lengthen, List.take_succ_cons]
    conv => lhs; unfold singleQuoted
    rw [if_neg hquote, if_neg hescape, if_neg hbreak, ih]
    rfl

private theorem tripleQuoted_take (run : Nat) (cs : List Char) :
    tripleQuoted quote run (cs.take (tripleQuoted quote run cs).2) = tripleQuoted quote run cs := by
  fun_induction tripleQuoted quote run cs with
  | case1 => rfl
  | case2 =>
    rw [List.take_succ_cons, List.take_zero]
    unfold tripleQuoted
    rw [if_pos rfl]
  | case3 run d rest ih =>
    simp only [lengthen, List.take_succ_cons]
    conv => lhs; unfold tripleQuoted
    rw [if_pos rfl]
    dsimp only
    rw [ih]
    rfl
  | case4 cs hescape =>
    rw [List.take_succ_cons, List.take_zero]
    unfold tripleQuoted
    rw [if_neg hescape, if_pos rfl, if_pos rfl]
  | case5 run cs hrun hescape ih =>
    simp only [lengthen, List.take_succ_cons]
    conv => lhs; unfold tripleQuoted
    rw [if_neg hescape, if_pos rfl, if_neg hrun, ih]
    rfl
  | case6 run d cs hescape hquote ih =>
    simp only [lengthen, List.take_succ_cons]
    conv => lhs; unfold tripleQuoted
    rw [if_neg hescape, if_neg hquote, ih]
    rfl

private theorem quoted_take (cs : List Char) :
    quoted quote (cs.take (quoted quote cs).2) = quoted quote cs := by
  by_cases hopens : ∃ rest, cs = quote :: quote :: rest
  · obtain ⟨rest, rfl⟩ := hopens
    rw [quoted_triple rfl, List.take_succ_cons, List.take_succ_cons, quoted_triple (tripleQuoted_take 0 rest)]
  · have hsingle (k : Nat) : ∀ a b rest, cs.take k = a :: b :: rest → ¬(a = quote && b = quote) = true := by
      intro a b rest heq hboth
      simp only [Bool.and_eq_true, decide_eq_true_eq] at hboth
      have hcs := List.take_append_drop k cs
      rw [heq, hboth.1, hboth.2] at hcs
      exact hopens ⟨_, hcs.symm⟩
    have hwhole := quoted_single rfl (by simpa using hsingle cs.length)
    rw [hwhole]
    exact quoted_single (singleQuoted_take cs) (hsingle _)

private theorem markedString?_take {cs : List Char} {piece : LiteralForm × Nat}
    (h : markedString? c cs = some piece) : markedString? c (cs.take piece.2) = some piece := by
  unfold markedString? at h ⊢
  by_cases hmark : isStringMark c = true
  · simp only [hmark, if_true] at h ⊢
    cases cs with
    | nil => cases h
    | cons q rest =>
      by_cases hq : isQuote q = true
      · simp only [hq, if_true] at h
        obtain rfl := Option.some.inj h
        simp only [lengthen, List.take_succ_cons, hq, if_true, quoted_take]
      · simp only [hq, Bool.false_eq_true, if_false] at h
        cases rest with
        | nil => cases h
        | cons r rest =>
          by_cases hr : (isStringMark q && isQuote r) = true
          · simp only [hr, if_true] at h
            obtain rfl := Option.some.inj h
            simp only [lengthen, List.take_succ_cons, hq, hr, if_true, quoted_take, Bool.false_eq_true, if_false]
          · simp only [hr, Bool.false_eq_true, if_false] at h
            cases h
  · simp only [hmark, Bool.false_eq_true, if_false] at h
    cases h

private theorem markedString?_take_none {cs : List Char} (h : markedString? c cs = none) (k : Nat) :
    markedString? c (cs.take k) = none := by
  unfold markedString? at h ⊢
  by_cases hmark : isStringMark c = true
  · simp only [hmark, if_true] at h ⊢
    cases cs with
    | nil => rw [List.take_nil]
    | cons q rest =>
      cases k with
      | zero => rfl
      | succ k =>
        by_cases hq : isQuote q = true
        · simp only [hq, if_true] at h
          cases h
        · simp only [List.take_succ_cons, hq, Bool.false_eq_true, if_false] at h ⊢
          cases rest with
          | nil => rw [List.take_nil]
          | cons r rest =>
            cases k with
            | zero => rfl
            | succ k =>
              by_cases hr : (isStringMark q && isQuote r) = true
              · simp only [hr, if_true] at h
                cases h
              · simp only [List.take_succ_cons, hr, Bool.false_eq_true, if_false]
  · simp only [hmark, Bool.false_eq_true, if_false]

end Strings

section Measure

variable {c : Char} {cs : List Char} {piece : Kind × Nat}

private theorem lineBreak?_take {n : Nat} (h : lineBreak? cs = some n) : lineBreak? (cs.take n) = some n := by
  unfold lineBreak? at h
  split at h
  · obtain rfl := Option.some.inj h
    rfl
  · obtain rfl := Option.some.inj h
    rfl
  · cases h

private theorem lineBreak?_take_none (h : lineBreak? cs = none) (k : Nat) : lineBreak? (cs.take k) = none := by
  cases hk : lineBreak? (cs.take k) with
  | none => rfl
  | some n =>
    have hcs := List.take_append_drop k cs
    unfold lineBreak? at hk
    split at hk
    · rename_i heq
      rw [heq] at hcs
      rw [← hcs] at h
      cases h
    · rename_i heq
      rw [heq] at hcs
      rw [← hcs] at h
      cases h
    · cases hk

private theorem filler?_take (h : filler? c cs = some piece) : filler? c (cs.take piece.2) = some piece := by
  unfold filler? at h ⊢
  by_cases hcomment : c = '#'
  · rw [if_pos hcomment] at h ⊢
    obtain rfl := Option.some.inj h
    rw [countWhile_take (Nat.le_refl _)]
  rw [if_neg hcomment] at h ⊢
  by_cases hfeed : c = '\n'
  · rwa [if_pos hfeed] at h ⊢
  rw [if_neg hfeed] at h ⊢
  by_cases hreturn : c = '\r'
  · rw [if_pos hreturn] at h ⊢
    split at h
    · rename_i hhead
      obtain rfl := Option.some.inj h
      rw [if_pos ((headIs_take fun _ => Nat.le_refl 1).trans hhead)]
    · cases h
  rw [if_neg hreturn] at h ⊢
  by_cases hslash : c = '\\'
  · rw [if_pos hslash] at h ⊢
    obtain ⟨n, hn, rfl⟩ := Option.map_eq_some_iff.mp h
    rw [lineBreak?_take hn]
    rfl
  rw [if_neg hslash] at h ⊢
  split at h
  · rename_i hblank
    obtain rfl := Option.some.inj h
    rw [if_pos hblank, countWhile_take (Nat.le_refl _)]
  · cases h

private theorem filler?_take_none (h : filler? c cs = none) (k : Nat) : filler? c (cs.take k) = none := by
  unfold filler? at h ⊢
  by_cases hcomment : c = '#'
  · rw [if_pos hcomment] at h
    cases h
  rw [if_neg hcomment] at h ⊢
  by_cases hfeed : c = '\n'
  · rw [if_pos hfeed] at h
    cases h
  rw [if_neg hfeed] at h ⊢
  by_cases hreturn : c = '\r'
  · rw [if_pos hreturn] at h ⊢
    split at h
    · cases h
    · rename_i hhead
      rw [if_neg (by rw [headIs_take_of_not (Bool.eq_false_iff.mpr hhead)]; exact nofun)]
  rw [if_neg hreturn] at h ⊢
  by_cases hslash : c = '\\'
  · rw [if_pos hslash] at h ⊢
    rw [lineBreak?_take_none (Option.map_eq_none_iff.mp h)]
    rfl
  rw [if_neg hslash] at h ⊢
  split at h
  · cases h
  · rename_i hblank
    rw [if_neg hblank]

private theorem not_pointed_take (h : ¬(c = '.' && headIs Char.isDigit cs) = true) (k : Nat) :
    ¬(c = '.' && headIs Char.isDigit (cs.take k)) = true := by
  intro hboth
  rw [Bool.and_eq_true] at hboth h
  by_cases hfirst : headIs Char.isDigit cs = true
  · exact h ⟨hboth.1, hfirst⟩
  · rw [headIs_take_of_not (Bool.eq_false_iff.mpr hfirst)] at hboth
    exact absurd hboth.2 Bool.false_ne_true

private theorem operand?_take (h : operand? c cs = some piece) : operand? c (cs.take piece.2) = some piece := by
  unfold operand? at h ⊢
  by_cases hstart : isIdentifierStart c = true
  · rw [if_pos hstart] at h ⊢
    cases hmarked : markedString? c cs with
    | some string =>
      rw [hmarked] at h
      obtain rfl := Option.some.inj h
      rw [markedString?_take hmarked]
    | none =>
      rw [hmarked] at h
      obtain rfl := Option.some.inj h
      rw [markedString?_take_none hmarked, countWhile_take (Nat.le_refl _)]
  rw [if_neg hstart] at h ⊢
  by_cases hdigit : c.isDigit = true
  · have htake := number_take c cs
    obtain ⟨form, n, hnumber⟩ : ∃ form n, number c cs = (form, n) := ⟨_, _, rfl⟩
    rw [if_pos hdigit, hnumber] at h
    rw [hnumber] at htake
    obtain rfl := Option.some.inj h
    rw [if_pos hdigit, htake]
  rw [if_neg hdigit] at h ⊢
  by_cases hpoint : (c = '.' && headIs Char.isDigit cs) = true
  · have htake := pointed_take cs
    have hpos := pointed_pos (Bool.and_eq_true_iff.mp hpoint).2
    obtain ⟨form, n, hpointed⟩ : ∃ form n, pointed cs = (form, n) := ⟨_, _, rfl⟩
    rw [if_pos hpoint, hpointed] at h
    rw [hpointed] at htake hpos
    obtain rfl := Option.some.inj h
    rw [headIs_take fun _ => hpos, if_pos hpoint, htake]
  rw [if_neg hpoint] at h
  rw [if_neg (not_pointed_take hpoint _)]
  by_cases hquote : isQuote c = true
  · have htake : quoted c (cs.take (quoted c cs).2) = quoted c cs := quoted_take cs
    obtain ⟨form, n, hquoted⟩ : ∃ form n, quoted c cs = (form, n) := ⟨_, _, rfl⟩
    rw [if_pos hquote, hquoted] at h
    rw [hquoted] at htake
    obtain rfl := Option.some.inj h
    rw [if_pos hquote, htake]
  · rw [if_neg hquote] at h
    cases h

private theorem operand?_take_none (h : operand? c cs = none) (k : Nat) : operand? c (cs.take k) = none := by
  unfold operand? at h ⊢
  by_cases hstart : isIdentifierStart c = true
  · rw [if_pos hstart] at h
    cases hmarked : markedString? c cs <;> rw [hmarked] at h <;> cases h
  rw [if_neg hstart] at h ⊢
  by_cases hdigit : c.isDigit = true
  · rw [if_pos hdigit] at h
    cases h
  rw [if_neg hdigit] at h ⊢
  by_cases hpoint : (c = '.' && headIs Char.isDigit cs) = true
  · rw [if_pos hpoint] at h
    cases h
  rw [if_neg hpoint] at h
  rw [if_neg (not_pointed_take hpoint k)]
  by_cases hquote : isQuote c = true
  · rw [if_pos hquote] at h
    cases h
  · rw [if_neg hquote]

private theorem find?_spelling : ∀ entry ∈ symbolSpellings,
    (symbolSpellings.find? fun other => other.1.isPrefixOf entry.1) = some entry ∧ entry.1 ≠ [] := by
  decide

private theorem symbol?_take {symbol : Symbol} {n : Nat} (h : symbol? (c :: cs) = some (symbol, n)) :
    symbol? (c :: cs.take (n - 1)) = some (symbol, n) := by
  obtain ⟨entry, hfind, heq⟩ := Option.map_eq_some_iff.mp h
  obtain ⟨rfl, rfl⟩ := Prod.mk.inj heq
  obtain ⟨hself, hne⟩ := find?_spelling entry (List.mem_of_find?_eq_some hfind)
  have hprefix : entry.1.isPrefixOf (c :: cs) = true := by
    have := List.find?_some hfind
    exact this
  have htext : c :: cs.take (entry.1.length - 1) = entry.1 := by
    have hpos := List.length_pos_iff.mpr hne
    rw [← List.take_succ_cons, Nat.sub_add_cancel hpos]
    exact (List.prefix_iff_eq_take.mp (List.isPrefixOf_iff_prefix.mp hprefix)).symm
  rw [htext, symbol?, hself]
  rfl

private theorem symbol?_take_none (h : symbol? (c :: cs) = none) (k : Nat) :
    symbol? (c :: cs.take k) = none := by
  unfold symbol? at h ⊢
  rw [Option.map_eq_none_iff, List.find?_eq_none] at h ⊢
  intro entry hmem hprefix
  refine h entry hmem (List.isPrefixOf_iff_prefix.mpr ?_)
  exact (List.isPrefixOf_iff_prefix.mp hprefix).trans (List.cons_prefix_cons.mpr ⟨rfl, List.take_prefix _ _⟩)

private theorem measure_take (c : Char) (cs : List Char) :
    measure c (cs.take (measure c cs).2) = measure c cs := by
  unfold measure
  cases hfiller : filler? c cs with
  | some piece => rw [filler?_take hfiller]
  | none =>
    cases hoperand : operand? c cs with
    | some piece =>
      dsimp only
      rw [filler?_take_none hfiller, operand?_take hoperand]
    | none =>
      cases hsymbol : symbol? (c :: cs) with
      | some piece =>
        obtain ⟨symbol, n⟩ := piece
        dsimp only
        rw [filler?_take_none hfiller, operand?_take_none hoperand, symbol?_take hsymbol]
      | none =>
        dsimp only
        rw [filler?_take_none hfiller, operand?_take_none hoperand, symbol?_take_none hsymbol]

end Measure

private theorem ofText_alone {c : Char} {cs : List Char} {kind : Kind} {n : Nat}
    (h : measure c cs = (kind, n)) :
    ofText (c :: cs.take n) = [⟨kind, c :: cs.take n⟩] := by
  have htake := measure_take c cs
  rw [h] at htake
  rw [ofText_cons htake, List.take_take, Nat.min_self, List.drop_take, Nat.sub_self, List.take_zero, ofText]

theorem ofText_text_of_mem {text : List Char} {lexeme : Lexeme} (h : lexeme ∈ ofText text) :
    lexeme.text ≠ [] ∧ ofText lexeme.text = [lexeme] := by
  fun_induction ofText text with
  | case1 => cases h
  | case2 c cs kind n hmeasure ih =>
    rcases List.mem_cons.mp h with rfl | hmem
    · exact ⟨List.cons_ne_nil _ _, ofText_alone hmeasure⟩
    · exact ih hmem

section Words

variable {c : Char} {cs : List Char}

private theorem filler?_start (h : isIdentifierStart c = true) : filler? c cs = none := by
  have hne {d : Char} (hd : isIdentifierStart d = false) : c ≠ d := by
    rintro rfl
    rw [h] at hd
    cases hd
  have hblank : isBlank c = false := by
    simp only [isBlank, Bool.or_eq_false_iff, decide_eq_false_iff_not]
    exact ⟨⟨⟨hne rfl, hne rfl⟩, hne rfl⟩, hne rfl⟩
  rw [filler?, if_neg (hne rfl), if_neg (hne rfl), if_neg (hne rfl), if_neg (hne rfl), hblank,
    if_neg Bool.false_ne_true]

private theorem not_isQuote_of_part (h : isIdentifierPart c = true) : isQuote c = false := by
  rw [isQuote, Bool.or_eq_false_iff, decide_eq_false_iff_not, decide_eq_false_iff_not]
  constructor
  all_goals
    rintro rfl
    exact absurd h (by decide)

private theorem markedString?_parts (h : cs.all isIdentifierPart = true) : markedString? c cs = none := by
  unfold markedString?
  split
  · cases cs with
    | nil => rfl
    | cons q rest =>
      obtain ⟨hq, hrest⟩ := Bool.and_eq_true_iff.mp h
      simp only [not_isQuote_of_part hq, Bool.false_eq_true, if_false]
      cases rest with
      | nil => rfl
      | cons r rest =>
        obtain ⟨hr, _⟩ := Bool.and_eq_true_iff.mp hrest
        simp only [not_isQuote_of_part hr, Bool.and_false, Bool.false_eq_true, if_false]
  · rfl

private theorem measure_identifier (hstart : isIdentifierStart c = true)
    (hparts : cs.all isIdentifierPart = true) :
    measure c cs = (.word, cs.length) := by
  have hcount : countWhile isIdentifierPart cs = cs.length := by
    rw [countWhile, List.takeWhile_eq_self_iff.mpr (List.all_eq_true.mp hparts)]
  rw [measure, filler?_start hstart, operand?, if_pos hstart, markedString?_parts hparts, hcount]

private theorem word_of_measure {n : Nat} (h : measure c cs = (.word, n)) :
    isIdentifierStart c = true ∧ n = countWhile isIdentifierPart cs := by
  unfold measure at h
  cases hfiller : filler? c cs with
  | some piece =>
    rw [hfiller] at h
    obtain rfl : piece = (.word, n) := h
    unfold filler? at hfiller
    repeat' split at hfiller
    all_goals simp_all
  | none =>
    rw [hfiller] at h
    cases hoperand : operand? c cs with
    | some piece =>
      rw [hoperand] at h
      obtain rfl : piece = (.word, n) := h
      unfold operand? at hoperand
      repeat' split at hoperand
      all_goals simp_all
    | none =>
      rw [hoperand] at h
      dsimp only at h
      split at h <;> cases h

/-- A text is an identifier if it is one lexeme, which is a word. -/
theorem isIdentifier_iff (text : List Char) :
    isIdentifier text = true ↔ ∃ lexeme, ofText text = [lexeme] ∧ lexeme.kind = .word := by
  cases text with
  | nil =>
    rw [ofText]
    constructor
    · intro h
      cases h
    · rintro ⟨lexeme, hnil, -⟩
      cases hnil
  | cons c cs =>
    obtain ⟨kind, n, hmeasure⟩ : ∃ kind n, measure c cs = (kind, n) := ⟨_, _, rfl⟩
    rw [isIdentifier, Bool.and_eq_true]
    constructor
    · rintro ⟨hstart, hparts⟩
      rw [ofText_cons (measure_identifier hstart hparts), List.drop_length, ofText]
      exact ⟨_, rfl, rfl⟩
    · rintro ⟨lexeme, hone, hkind⟩
      rw [ofText_cons hmeasure] at hone
      obtain ⟨rfl, hrest⟩ := List.cons.inj hone
      obtain rfl : kind = .word := hkind
      obtain ⟨hstart, hcount⟩ := word_of_measure hmeasure
      have hdrop : cs.drop n = [] := by
        have hnone := flatMap_text_ofText (cs.drop n)
        rw [hrest] at hnone
        exact hnone.symm
      have hall : cs.takeWhile isIdentifierPart = cs := by
        refine (List.takeWhile_prefix _).eq_of_length_le ?_
        rw [← countWhile, ← hcount]
        exact List.drop_eq_nil_iff.mp hdrop
      refine ⟨hstart, ?_⟩
      rw [← hall]
      exact List.all_takeWhile

end Words

/-- A text is cut into pieces that stand for themselves: each of them takes at least one byte and is what
stands in the text behind the bytes of those before it, together they have all bytes of the text, and each
cut out alone is one lexeme, the same one. A text is an identifier if it is one such piece, which is a word. -/
theorem ofText_partition (text : List Char) :
    (∀ lexeme ∈ ofText text, 1 ≤ byteLength lexeme.text ∧ ofText lexeme.text = [lexeme]) ∧
    ((ofText text).map fun lexeme => byteLength lexeme.text).sum = byteLength text ∧
    (∀ before lexeme after, ofText text = before ++ lexeme :: after →
      ∀ start, (before.map fun lexeme => byteLength lexeme.text).sum = start →
        slice? start (start + byteLength lexeme.text) text = some lexeme.text) ∧
    (isIdentifier text = true ↔ ∃ lexeme, ofText text = [lexeme] ∧ lexeme.kind = .word) := by
  have hsum (lexemes : List Lexeme) :
      (lexemes.map fun lexeme => byteLength lexeme.text).sum = byteLength (lexemes.flatMap Lexeme.text) := by
    induction lexemes with
    | nil => rfl
    | cons lexeme lexemes ih =>
      rw [List.map_cons, List.sum_cons, List.flatMap_cons, byteLength_append, ih]
  have htext := flatMap_text_ofText text
  refine ⟨fun lexeme hmem => ?_, ?_, ?_, isIdentifier_iff text⟩
  · obtain ⟨hne, halone⟩ := ofText_text_of_mem hmem
    refine ⟨?_, halone⟩
    obtain ⟨c, cs, hcs⟩ := List.exists_cons_of_ne_nil hne
    rw [hcs, byteLength_cons]
    exact Nat.le_trans c.utf8Size_pos (Nat.le_add_right _ _)
  · rw [hsum, htext]
  · rintro before lexeme after hsplit start rfl
    rw [hsplit, List.flatMap_append, List.flatMap_cons] at htext
    rw [hsum, ← htext]
    exact slice?_append _ _ _

end Lexeme

end QuantumScript
