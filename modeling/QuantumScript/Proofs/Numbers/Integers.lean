import Mathlib
import QuantumScript.Number.Literal
import QuantumScript.Proofs.Folding.Laws
import QuantumScript.Proofs.Folding.Leaves
import QuantumScript.Proofs.Lexing.Breaks
import QuantumScript.Proofs.Printing.Lexing
import QuantumScript.Proofs.Seams.Folds
/-!
# Integer literals

The lexer and the reader of numbers take the digits of an integer literal by different rules. Here the
value of an integer literal is compared with positional notation, for every literal that can be cut from a
text.
-/

namespace QuantumScript

/-- How many characters name the radix at the front of a literal. -/
def Radix.prefixLength : Radix → Nat
  | .decimal => 0
  | .binary | .octal | .hexadecimal => 2

namespace Number

/-- A character is the digit of a radix that counts so many. Letters are digits in both cases. -/
def IsDigit (radix : Nat) (c : Char) (digit : Nat) : Prop :=
  digit < radix ∧ (c = digit.digitChar ∨ c = digit.digitChar.toUpper)

/-- Characters that are digits of a radix, at least one of them, and their positional value. -/
def Denotes (radix : Nat) (digits : List Char) (value : Nat) : Prop :=
  digits ≠ [] ∧ ∃ places, List.Forall₂ (IsDigit radix) digits places ∧
    value = Nat.ofDigits radix places.reverse

/-- The digits of a literal: what stands after its prefix, without the underscores. -/
def literalDigits (radix : Radix) (text : List Char) : List Char :=
  withoutUnderscores (text.drop radix.prefixLength)

section Digits

variable {radix : Nat}

private theorem digitValue?_mono {more : Nat} (h : radix ≤ more) {c : Char} {digit : Nat} :
    digitValue? radix c = some digit ↔ digitValue? more c = some digit ∧ digit < radix := by
  simp only [digitValue?, Option.filter_eq_some_iff, decide_eq_true_eq]
  constructor
  · rintro ⟨hvalue, hlt⟩
    exact ⟨⟨hvalue, Nat.lt_of_lt_of_le hlt h⟩, hlt⟩
  · rintro ⟨⟨hvalue, _⟩, hlt⟩
    exact ⟨hvalue, hlt⟩

private theorem digitValue?_digitChar : ∀ digit < 16, digitValue? 16 (Nat.digitChar digit) = some digit ∧
    digitValue? 16 (Nat.digitChar digit).toUpper = some digit := by
  decide

private theorem digitChar_digitValue? : ∀ n < 128, (digitValue? 16 (Char.ofNat n)).all (fun digit =>
    Char.ofNat n = digit.digitChar || Char.ofNat n = digit.digitChar.toUpper) = true := by
  decide

private theorem toNat_lt_of_digitValue? {c : Char} {digit : Nat} (h : digitValue? radix c = some digit) :
    c.toNat < 128 := by
  have hle {d : Char} (hd : d.toNat < 128) (hcd : c ≤ d) : c.toNat < 128 :=
    Nat.lt_of_le_of_lt (UInt32.le_iff_toNat_le.mp (Char.le_def.mp hcd)) hd
  unfold digitValue? at h
  rw [Option.filter_eq_some_iff] at h
  obtain ⟨hvalue, _⟩ := h
  split at hvalue
  · rename_i hdigit
    exact hle (by decide) (of_decide_eq_true (Bool.and_eq_true_iff.mp hdigit).2)
  split at hvalue
  · rename_i hlower
    exact hle (by decide) (of_decide_eq_true (Bool.and_eq_true_iff.mp hlower).2)
  split at hvalue
  · rename_i hupper
    exact hle (by decide) (of_decide_eq_true (Bool.and_eq_true_iff.mp hupper).2)
  · cases hvalue

private theorem digitValue?_eq_some (hradix : radix ≤ 16) {c : Char} {digit : Nat} :
    digitValue? radix c = some digit ↔ IsDigit radix c digit := by
  rw [digitValue?_mono hradix]
  constructor
  · rintro ⟨hvalue, hlt⟩
    have hspelled := digitChar_digitValue? c.toNat (toNat_lt_of_digitValue? hvalue)
    rw [Char.ofNat_toNat, hvalue, Option.all_some, Bool.or_eq_true, decide_eq_true_eq, decide_eq_true_eq]
      at hspelled
    exact ⟨hlt, hspelled⟩
  · rintro ⟨hlt, rfl | rfl⟩
    · exact ⟨(digitValue?_digitChar digit (Nat.lt_of_lt_of_le hlt hradix)).1, hlt⟩
    · exact ⟨(digitValue?_digitChar digit (Nat.lt_of_lt_of_le hlt hradix)).2, hlt⟩

private theorem digitsFrom_eq_some (hradix : radix ≤ 16) {digits : List Char} {before value : Nat} :
    digitsFrom radix before digits = some value ↔
      ∃ places, List.Forall₂ (IsDigit radix) digits places ∧
        value = places.foldl (fun total digit => total * radix + digit) before := by
  induction digits generalizing before with
  | nil =>
    rw [digitsFrom, Option.some_inj]
    constructor
    · rintro rfl
      exact ⟨[], .nil, rfl⟩
    · rintro ⟨places, hplaces, rfl⟩
      cases hplaces
      rfl
  | cons c digits ih =>
    rw [digitsFrom]
    constructor
    · intro h
      cases hdigit : digitValue? radix c with
      | none =>
        rw [hdigit] at h
        cases h
      | some digit =>
        rw [hdigit] at h
        obtain ⟨places, hplaces, rfl⟩ := ih.mp h
        exact ⟨digit :: places, .cons ((digitValue?_eq_some hradix).mp hdigit) hplaces, rfl⟩
    · rintro ⟨_, hplaces, rfl⟩
      cases hplaces with
      | cons hdigit hplaces =>
        rw [(digitValue?_eq_some hradix).mpr hdigit]
        exact ih.mpr ⟨_, hplaces, rfl⟩

private theorem foldl_places (radix : Nat) (places : List Nat) :
    places.foldl (fun total digit => total * radix + digit) 0 = Nat.ofDigits radix places.reverse := by
  rw [Nat.ofDigits_eq_foldr, List.foldr_reverse]
  congr 1
  funext total digit
  rw [Nat.cast_id, Nat.mul_comm, Nat.add_comm]

private theorem digits?_eq_some (hradix : radix ≤ 16) {digits : List Char} {value : Nat} :
    digits? radix digits = some value ↔ Denotes radix digits value := by
  unfold digits? Denotes
  cases digits with
  | nil => simp
  | cons c digits =>
    rw [List.isEmpty_cons, if_neg Bool.false_ne_true, digitsFrom_eq_some hradix]
    simp only [foldl_places, ne_eq, reduceCtorEq, not_false_eq_true, true_and]

end Digits
end Number

namespace Lexeme

open Text

/-- What tells the integer literals of a radix from others: the prefix of the radix, or that there are only
decimal digits and underscores. -/
def IntegerText (radix : Radix) (text : List Char) : Prop :=
  (radix = .decimal ∧ ∀ c ∈ text, c = '_' ∨ c.isDigit = true) ∨
    ∃ letter rest, text = '0' :: letter :: rest ∧ radix? letter = some radix

section Shapes

variable {c : Char} {cs : List Char} {radix : Radix} {digitless : Bool} {n : Nat}

private theorem exponentOr_integer {form : LiteralForm}
    (h : (exponentOr form cs).1 = .integer radix digitless) :
    form = .integer radix digitless ∧ (exponentOr form cs).2 = 0 := by
  unfold exponentOr at h ⊢
  split at h
  · cases h
  · rename_i hhead
    rw [if_neg hhead]
    exact ⟨h, rfl⟩

private theorem imaginaryOr_integer {number : LiteralForm × Nat}
    (h : imaginaryOr number cs = (.integer radix digitless, n)) : number = (.integer radix digitless, n) := by
  unfold imaginaryOr at h
  split at h
  · cases h
  · exact h

private theorem decimal_integer (h : decimal cs = (.integer radix digitless, n)) :
    radix = .decimal ∧ n = (digits Char.isDigit cs).2 := by
  by_cases hpoint : ∃ rest, cs.drop (digits Char.isDigit cs).2 = '.' :: rest
  · obtain ⟨rest, hrest⟩ := hpoint
    rw [decimal_point hrest] at h
    have hnumber := imaginaryOr_integer h
    split at hnumber
    · cases hnumber
      exact ⟨rfl, rfl⟩
    · obtain ⟨hform, _⟩ := Prod.mk.inj hnumber
      cases (exponentOr_integer hform).1
  · rw [decimal_whole fun rest heq => hpoint ⟨rest, heq⟩] at h
    obtain ⟨hform, hlength⟩ := Prod.mk.inj (imaginaryOr_integer h)
    obtain ⟨hradix, hzero⟩ := exponentOr_integer hform
    cases hradix
    refine ⟨rfl, ?_⟩
    rw [← hlength, hzero, Nat.zero_add]

private theorem mem_digits {p : Char → Bool} {d : Char} (h : d ∈ cs.take (digits p cs).2) :
    d = '_' ∨ p d = true := by
  unfold digits at h
  rw [← List.prefix_iff_eq_take.mp (List.takeWhile_prefix _)] at h
  simpa using List.mem_takeWhile_imp h

private theorem number_integer (hdigit : c.isDigit = true)
    (h : number c cs = (.integer radix digitless, n)) : IntegerText radix (c :: cs.take n) := by
  have hdecimal (h : decimal cs = (.integer radix digitless, n)) : IntegerText radix (c :: cs.take n) := by
    obtain ⟨hradix, rfl⟩ := decimal_integer h
    refine .inl ⟨hradix, fun d hd => ?_⟩
    rcases List.mem_cons.mp hd with rfl | hd
    · exact .inr hdigit
    · exact mem_digits hd
  cases cs with
  | nil => exact hdecimal h
  | cons letter rest =>
    cases hletter : (if c = '0' then radix? letter else none) with
    | none =>
      rw [number, hletter] at h
      exact hdecimal h
    | some found =>
      rw [number, hletter] at h
      cases h
      split at hletter
      · rename_i hzero
        exact .inr ⟨letter, _, by rw [hzero, List.take_succ_cons], hletter⟩
      · cases hletter

private theorem quoted_ne_integer (quote : Char) : quoted quote cs ≠ (.integer radix digitless, n) := by
  intro h
  unfold quoted at h
  repeat' split at h
  all_goals cases h

private theorem markedString?_ne_integer : markedString? c cs ≠ some (.integer radix digitless, n) := by
  have hquoted (quote : Char) (k : Nat) (cs : List Char) :
      some (lengthen k (quoted quote cs)) ≠ some (.integer radix digitless, n) := by
    intro h
    obtain ⟨hform, _⟩ := Prod.mk.inj (Option.some.inj h)
    exact quoted_ne_integer quote (Prod.ext hform rfl)
  intro h
  unfold markedString? at h
  repeat' split at h
  all_goals first | exact hquoted _ _ _ h | cases h

private theorem pointed_ne_integer : pointed cs ≠ (.integer radix digitless, n) := by
  intro h
  unfold pointed at h
  obtain ⟨hform, _⟩ := Prod.mk.inj (imaginaryOr_integer h)
  cases (exponentOr_integer hform).1

private theorem operand?_integer (h : operand? c cs = some (.literal (.integer radix digitless), n)) :
    c.isDigit = true ∧ number c cs = (.integer radix digitless, n) := by
  have hliteral {piece : LiteralForm × Nat}
      (h : some (Kind.literal piece.1, piece.2) = some (.literal (.integer radix digitless), n)) :
      piece = (.integer radix digitless, n) := by
    obtain ⟨hkind, hlength⟩ := Prod.mk.inj (Option.some.inj h)
    exact Prod.ext (Kind.literal.inj hkind) hlength
  unfold operand? at h
  split at h
  · cases hmarked : markedString? c cs with
    | some piece =>
      rw [hmarked] at h
      exact absurd (hmarked.trans (congrArg some (hliteral h))) markedString?_ne_integer
    | none =>
      rw [hmarked] at h
      cases h
  split at h
  · rename_i hdigit
    exact ⟨hdigit, hliteral h⟩
  split at h
  · exact absurd (hliteral h) pointed_ne_integer
  split at h
  · exact absurd (hliteral h) (quoted_ne_integer c)
  · cases h

private theorem measure_integer (h : measure c cs = (.literal (.integer radix digitless), n)) :
    IntegerText radix (c :: cs.take n) := by
  rcases measure_cases h with hfiller | hoperand | hother
  · unfold filler? at hfiller
    repeat' split at hfiller
    all_goals simp_all
  · obtain ⟨hdigit, hnumber⟩ := operand?_integer hoperand
    exact number_integer hdigit hnumber
  · unfold symbolOr at hother
    split at hother <;> cases hother

end Shapes

private theorem integerText_of_mem {text : List Char} {lexeme : Lexeme} {radix : Radix} {digitless : Bool}
    (h : lexeme ∈ ofText text) (hkind : lexeme.kind = .literal (.integer radix digitless)) :
    IntegerText radix lexeme.text := by
  fun_induction ofText text with
  | case1 => cases h
  | case2 c cs kind n hmeasure ih =>
    rcases List.mem_cons.mp h with rfl | hmem
    · obtain rfl : kind = .literal (.integer radix digitless) := hkind
      exact measure_integer hmeasure
    · exact ih hmem

end Lexeme

namespace Number

private theorem integer?_eq {radix : Radix} {text : List Char} (h : Lexeme.IntegerText radix text) :
    integer? text = (digits? radix.value (literalDigits radix text)).filter (· ≤ greatest) := by
  have hsplit : splitRadix (withoutUnderscores text) = (radix.value, literalDigits radix text) := by
    rcases h with ⟨rfl, hdigits⟩ | ⟨letter, rest, rfl, hradix⟩
    · have hall : ∀ c ∈ withoutUnderscores text, c.isDigit = true := by
        intro c hc
        obtain ⟨hmem, hne⟩ := List.mem_filter.mp hc
        exact (hdigits c hmem).resolve_left (of_decide_eq_true hne)
      unfold splitRadix
      split
      all_goals first
        | rfl
        | rename_i heq
          rw [heq] at hall
          exact absurd (hall _ (List.mem_cons_of_mem _ List.mem_cons_self)) (by decide)
    · unfold Lexeme.radix? at hradix
      split at hradix
      all_goals cases hradix
      all_goals rfl
  rw [integer?, hsplit]

/-- An integer literal has the positional value of its digits, if they are digits of its radix and the value
needs no more than 64 bits with a sign. -/
private theorem integer?_eq_some {radix : Radix} {text : List Char} (h : Lexeme.IntegerText radix text)
    {value : Nat} :
    integer? text = some value ↔
      Denotes radix.value (literalDigits radix text) value ∧ value ≤ greatest := by
  have hradix : radix.value ≤ 16 := by cases radix <;> decide
  rw [integer?_eq h, Option.filter_eq_some_iff, digits?_eq_some hradix, decide_eq_true_eq]

private theorem integer?_le {text : List Char} {value : Nat} (h : integer? text = some value) :
    value ≤ greatest := by
  rw [integer?, Option.filter_eq_some_iff] at h
  exact of_decide_eq_true h.2

end Number

namespace Term

/-- An integer of 64 bits whose negative is one as well. -/
def IsSymmetric (value : Int) : Prop := -(Number.greatest : Int) ≤ value ∧ value ≤ Number.greatest

/-- The integer that a leaf holds: a literal or an index. -/
def integer? : Term → Option Int
  | .integer value _ | .element _ value _ => some value
  | _ => none

/-- All integers in a term can be negated. -/
def Symmetric (term : Term) : Prop :=
  ∀ leaf ∈ term.leaves, ∀ value, leaf.integer? = some value → IsSymmetric value

theorem IsSymmetric.neg {value : Int} (h : IsSymmetric value) : IsSymmetric (-value) := by
  obtain ⟨hlow, hhigh⟩ := h
  exact ⟨Int.neg_le_neg hhigh, Int.neg_le_of_neg_le hlow⟩

theorem isSymmetric_zero : IsSymmetric 0 := by
  unfold IsSymmetric
  decide

theorem IsSymmetric.ofNat {value : Nat} (h : value ≤ Number.greatest) : IsSymmetric value := by
  unfold IsSymmetric
  omega

section Forms

variable {terms : List Term} {name : String} {value : Int} {position : Position}

private theorem symmetric_expression : (Term.expression terms).Symmetric ↔ ∀ term ∈ terms, term.Symmetric := by
  simp only [Symmetric, leaves, mem_leavesAll]
  exact ⟨fun h term hmem leaf hleaf => h leaf ⟨term, hmem, hleaf⟩,
    fun h leaf ⟨term, hmem, hleaf⟩ => h term hmem leaf hleaf⟩

private theorem symmetric_methodCall :
    (Term.methodCall name terms position).Symmetric ↔ ∀ term ∈ terms, term.Symmetric := by
  rw [← symmetric_expression]
  simp [Symmetric, leaves, integer?]

private theorem symmetric_assignment {target value : Term} :
    (Term.assignment target value).Symmetric ↔ target.Symmetric ∧ value.Symmetric := by
  simp only [Symmetric, leaves, List.mem_append, or_imp, forall_and]

private theorem symmetric_integer : (Term.integer value position).Symmetric ↔ IsSymmetric value := by
  simp [Symmetric, leaves, integer?]

private theorem symmetric_element : (Term.element name value position).Symmetric ↔ IsSymmetric value := by
  simp [Symmetric, leaves, integer?]

private theorem symmetric_of_leaves {term : Term} (hleaves : term.leaves = [term]) (h : term.integer? = none) :
    term.Symmetric := by
  intro leaf hleaf value hvalue
  rw [hleaves, List.mem_singleton] at hleaf
  subst hleaf
  rw [h] at hvalue
  cases hvalue

end Forms

end Term

namespace Folding

open Text (LineIndex)

section Symmetric

variable {index : LineIndex} {term : Term} {terms : List Term}

private theorem symmetric_literal {extent : Ast.Extent} {tokens : List Ast.Leaf}
    (h : literal index extent tokens = some term) : term.Symmetric := by
  unfold literal at h
  split at h
  · cases h
  · split at h
    · obtain ⟨_, hvalue, rfl⟩ := Option.map_eq_some_iff.mp h
      obtain ⟨value, hnumber, hcast⟩ := Option.bind_eq_some_iff.mp hvalue
      cases hcast
      exact Term.symmetric_integer.mpr (.ofNat (Number.integer?_le hnumber))
    · obtain ⟨value, _, rfl⟩ := Option.map_eq_some_iff.mp h
      exact Term.symmetric_of_leaves rfl rfl
    · cases h
      exact Term.symmetric_of_leaves rfl rfl
    · cases h
      exact Term.symmetric_of_leaves rfl rfl
    · cases h
      exact Term.symmetric_of_leaves rfl rfl
    · cases h

private theorem symmetric_signed {operator : Option Syntax.TokenKind} {operand : Term} {position : Position}
    (hoperand : operand.Symmetric) (h : signed operator operand position = some term) : term.Symmetric := by
  unfold signed at h
  split at h
  · split at h
    · cases h
      exact Term.symmetric_integer.mpr (Term.symmetric_integer.mp hoperand).neg
    · cases h
      exact Term.symmetric_of_leaves rfl rfl
    · cases h
  · cases h
    exact hoperand
  · cases h

private theorem isSymmetric_firstInteger (h : ∀ term ∈ terms, term.Symmetric) :
    Term.IsSymmetric ((firstInteger terms).getD 0) := by
  cases hfirst : firstInteger terms with
  | none => exact Term.isSymmetric_zero
  | some value =>
    obtain ⟨term, hmem, hterm⟩ := List.exists_of_findSome?_eq_some hfirst
    split at hterm
    · cases hterm
      exact Term.symmetric_integer.mp (h _ hmem)
    · cases hterm

private theorem keeps_symmetric (index : LineIndex) : Keeps index Term.Symmetric where
  reference _ := Term.symmetric_of_leaves rfl rfl
  literal := symmetric_literal
  dictionary _ := Term.symmetric_of_leaves rfl rfl
  expression := Term.symmetric_expression.mpr
  methodCall _ _ := Term.symmetric_methodCall.mpr
  element _ _ hindices := Term.symmetric_element.mpr (isSymmetric_firstInteger hindices)
  signed := symmetric_signed

private theorem symmetric_assignment {targets : List Ast.Expr} {value : Term} (hvalue : value.Symmetric)
    (h : assignment index targets value = some term) : term.Symmetric := by
  induction targets generalizing term with
  | nil =>
    cases h
    exact hvalue
  | cons target rest ih =>
    unfold assignment at h
    split at h
    · rename_i folded others htarget hothers
      cases h
      exact Term.symmetric_assignment.mpr ⟨(keeps_symmetric index).expr target _ htarget, ih hothers⟩
    · cases h

private theorem symmetric_statement {statement : Ast.Statement} {folded : FoldedStatement}
    (h : Folding.statement index statement = some folded) : folded.term.Symmetric := by
  unfold Folding.statement at h
  split at h
  · split at h
    · rename_i value _
      obtain ⟨term, hterm, rfl⟩ := Option.map_eq_some_iff.mp h
      obtain ⟨folded, hfolded, hassigned⟩ := Option.bind_eq_some_iff.mp hterm
      refine symmetric_assignment ?_ hassigned
      split at hfolded
      · exact (keeps_symmetric index).expr value _ hfolded
      · cases hfolded
        cases hvalue : Folding.expr index value with
        | none => exact Term.symmetric_expression.mpr nofun
        | some term => exact (keeps_symmetric index).expr value _ hvalue
    · cases h
  · cases h

end Symmetric

private theorem symmetric_ofText {text : List Char} {folded : FoldedStatement} (h : folded ∈ ofText text) :
    folded.term.Symmetric := by
  obtain ⟨statement, _, hfolded⟩ := List.mem_filterMap.mp h
  exact symmetric_statement hfolded

private theorem toInt_neg {value : Int} (h : Term.IsSymmetric value) : (-Int64.ofInt value).toInt = -value := by
  obtain ⟨hlow, hhigh⟩ := h
  have hgreatest : (Number.greatest : Int) = 2 ^ 63 - 1 := by decide
  rw [Int64.neg_ofInt, Int64.toInt_ofInt_of_le (by omega) (by omega)]

/-- Integer literals are read exactly and nothing overflows. The value of an integer literal that is cut from
a text is the positional value of what is left of it without its prefix and its underscores; it has none
only if nothing is left, if something is left that is no digit of its radix, or if the value is greater than
that of any machine integer. So every integer in a folded statement is one that machine integers can negate,
and so is every integer that is negated on the way, whatever expression it comes from. -/
theorem integers_exact (text : List Char) :
    (∀ lexeme ∈ Lexeme.ofText text, ∀ radix digitless, lexeme.kind = .literal (.integer radix digitless) →
      ∀ value, Number.integer? lexeme.text = some value ↔
        Number.Denotes radix.value (Number.literalDigits radix lexeme.text) value ∧ value ≤ 2 ^ 63 - 1) ∧
    (∀ folded ∈ ofText text, ∀ leaf ∈ folded.term.leaves, ∀ value, leaf.integer? = some value →
      -(2 ^ 63 - 1) ≤ value ∧ value ≤ 2 ^ 63 - 1) ∧
    (∀ index operand value position, Folding.optional index operand = some (.integer value position) →
      (-(2 ^ 63 - 1) ≤ value ∧ value ≤ 2 ^ 63 - 1) ∧ (-Int64.ofInt value).toInt = -value) := by
  have hgreatest : Number.greatest = 2 ^ 63 - 1 := by decide
  have hrange {value : Int} (h : Term.IsSymmetric value) :
      -(2 ^ 63 - 1) ≤ value ∧ value ≤ 2 ^ 63 - 1 := by
    obtain ⟨hlow, hhigh⟩ := h
    omega
  refine ⟨?_, ?_, ?_⟩
  · intro lexeme hlexeme radix digitless hkind value
    rw [← hgreatest]
    exact Number.integer?_eq_some (Lexeme.integerText_of_mem hlexeme hkind)
  · intro folded hfolded leaf hleaf value hvalue
    exact hrange (symmetric_ofText hfolded leaf hleaf value hvalue)
  · intro index operand value position hfolded
    have hvalue := Term.symmetric_integer.mp ((keeps_symmetric index).optional operand _ hfolded)
    exact ⟨hrange hvalue, toInt_neg hvalue⟩

/-- The boundary is met on both sides, in lower and upper case; other digits are none of a radix. -/
example : Number.integer? "0X7FFF_ffff_ffff_FFFF".toList = some (2 ^ 63 - 1) ∧
    Number.integer? "9223372036854775808".toList = none ∧ Number.integer? "0b12".toList = none ∧
    Number.integer? "0o_".toList = none ∧ Number.integer? "0_0_17".toList = some 17 := by decide

end Folding

end QuantumScript
