import QuantumScript.Proofs.Folding.Order
import QuantumScript.Proofs.Lexing.Alone
import QuantumScript.Proofs.Lexing.Strings
import QuantumScript.Proofs.Parsing.Conforming
import Std.Data.String.ToInt
/-!
# Written terms

A term that is written is read back in one way only, even before any other text: it begins with the word of its
constructor, and what stands between the parentheses ends where punctuation stands that cannot belong to it.
Names are identifiers, integers are digits, and in a quoted string each quote is escaped. So two statements that
are written the same differ in their positions only.
-/

namespace QuantumScript

namespace Text

/-- Different texts are quoted differently, and between the quotes each quote and each backslash is escaped. -/
structure Quotes (quote : List Char → List Char) : Prop where
  injective : Function.Injective quote
  delimited (text : List Char) : ∃ body, quote text = '"' :: body ++ ['"'] ∧ Unescaped body ∧ Absent ['"'] body

/-- No comma and no closing parenthesis stands in the text. -/
def Plain (text : List Char) : Prop := ∀ c ∈ text, c ≠ ',' ∧ c ≠ ')'

section Stops

variable {text other rest more : List Char} {c d : Char}

private theorem eq_of_stop (isStop : Char → Bool) (htext : ∀ e ∈ text, isStop e = false)
    (hother : ∀ e ∈ other, isStop e = false)
    (hc : isStop c = true) (hd : isStop d = true) (h : text ++ c :: rest = other ++ d :: more) :
    text = other ∧ c :: rest = d :: more := by
  have htaken {text rest : List Char} {c : Char} (htext : ∀ e ∈ text, isStop e = false) (hc : isStop c = true) :
      (text ++ c :: rest).takeWhile (fun e => !isStop e) = text := by
    rw [List.takeWhile_append_of_pos (by simpa using htext), List.takeWhile_cons_of_neg (by simp [hc]), List.append_nil]
  have htexts : text = other := by
    rw [← htaken htext hc, h, htaken hother hd]
  subst htexts
  exact ⟨rfl, List.append_cancel_left h⟩

private theorem Plain.eq_of_stop (htext : Plain text) (hother : Plain other) (hc : c = ',' ∨ c = ')')
    (hd : d = ',' ∨ d = ')') (h : text ++ c :: rest = other ++ d :: more) : text = other ∧ c :: rest = d :: more := by
  refine Text.eq_of_stop (fun e => e = ',' || e = ')') (fun e he => ?_) (fun e he => ?_) ?_ ?_ h
  · simpa using htext e he
  · simpa using hother e he
  · simpa using hc
  · simpa using hd

private theorem eq_of_quote (htext : Unescaped text ∧ Absent ['"'] text)
    (hother : Unescaped other ∧ Absent ['"'] other)
    (h : text ++ '"' :: rest = other ++ '"' :: more) : text = other ∧ rest = more := by
  have hle {text other rest more : List Char} (htext : Unescaped text) (hother : Absent ['"'] other)
      (h : text ++ '"' :: rest = other ++ '"' :: more) : other.length ≤ text.length := by
    by_contra hlt
    refine hother text htext (List.prefix_of_prefix_length_le ?_ (List.prefix_append other ('"' :: more)) ?_)
    · rw [← h]
      exact ⟨rest, List.append_assoc ..⟩
    · rw [List.length_append, List.length_singleton]
      omega
  have hlength := Nat.le_antisymm (hle hother.1 htext.2 h.symm) (hle htext.1 hother.2 h)
  obtain ⟨htexts, hrest⟩ := List.append_inj h hlength
  exact ⟨htexts, (List.cons.inj hrest).2⟩

end Stops

theorem Quotes.eq_of_append {quote : List Char → List Char} (hquote : Quotes quote) {text other rest more : List Char}
    (h : quote text ++ rest = quote other ++ more) : text = other ∧ rest = more := by
  obtain ⟨body, htext, hbody⟩ := hquote.delimited text
  obtain ⟨second, hother, hsecond⟩ := hquote.delimited other
  rw [htext, hother] at h
  simp only [List.cons_append, List.append_assoc, List.nil_append] at h
  obtain ⟨rfl, hrest⟩ := eq_of_quote hbody hsecond (List.cons.inj h).2
  exact ⟨hquote.injective (htext.trans hother.symm), hrest⟩

section Escapes

/-- The letters that stand for characters behind a backslash. -/
def escapeLetters : List (Char × Char) :=
  [('\\', '\\'), ('"', '"'), ('n', '\n'), ('r', '\r'), ('t', '\t'), ('0', '\x00')]

private theorem escape_forms (c : Char) :
    (escape c = [c] ∧ c ≠ '\\' ∧ c ≠ '"') ∨
      (∃ letter, escape c = ['\\', letter] ∧ (letter, c) ∈ escapeLetters) ∨
      (escape c = ['\\', 'u', '{'] ++ Nat.toDigits 16 c.toNat ++ ['}'] ∧ c.toNat < 160) := by
  unfold escape
  split_ifs with hbackslash hquote hfeed hreturn htabulator hnull hcontrol
  iterate 5 exact .inr (.inl ⟨_, rfl, by simp_all [escapeLetters]⟩)
  · have hc : c = '\x00' := Char.toNat_inj.mp hnull
    exact .inr (.inl ⟨_, rfl, by simp [escapeLetters, hc]⟩)
  · refine .inr (.inr ⟨rfl, ?_⟩)
    simp only [isControl, Bool.or_eq_true, Bool.and_eq_true, decide_eq_true_eq] at hcontrol
    omega
  · exact .inl ⟨rfl, hbackslash, hquote⟩

private theorem toDigits_pair : ∀ high < 10, ∀ low < 16,
    Number.digits? 16 (Nat.toDigits 16 (16 * high + low)) = some (16 * high + low) ∧
      (Nat.toDigits 16 (16 * high + low)).all Char.isAlphanum = true := by
  decide

private theorem toDigits_control {n : Nat} (h : n < 160) : Number.digits? 16 (Nat.toDigits 16 n) = some n ∧
    ∀ c ∈ Nat.toDigits 16 n, c ≠ '\\' ∧ c ≠ '"' ∧ c ≠ '}' := by
  obtain ⟨hvalue, hdigits⟩ := toDigits_pair (n / 16) (by omega) (n % 16) (Nat.mod_lt _ (by decide))
  rw [Nat.div_add_mod] at hvalue hdigits
  refine ⟨hvalue, fun c hc => ?_⟩
  have halphanum := List.all_eq_true.mp hdigits c hc
  refine ⟨?_, ?_, ?_⟩ <;>
  · rintro rfl
    exact absurd halphanum (by decide)

private theorem escapeLetters_injective : ∀ entry ∈ escapeLetters, ∀ other ∈ escapeLetters,
    entry.1 = other.1 → entry = other := by
  decide

private theorem not_mem_escapeLetters {c : Char} : ('u', c) ∉ escapeLetters := by
  simp [escapeLetters]

variable {c d : Char} {text rest more : List Char}

private theorem escape_append_inj (h : escape c ++ rest = escape d ++ more) : c = d ∧ rest = more := by
  rcases escape_forms c with ⟨hc, hplain, -⟩ | ⟨letter, hc, hletter⟩ | ⟨hc, hlt⟩ <;>
    rcases escape_forms d with ⟨hd, hother, -⟩ | ⟨other, hd, hmem⟩ | ⟨hd, hless⟩ <;>
    rw [hc, hd] at h
  · exact List.cons.inj h
  · exact absurd (List.cons.inj h).1 hplain
  · exact absurd (List.cons.inj h).1 hplain
  · exact absurd (List.cons.inj h).1.symm hother
  · obtain ⟨hletters, hrest⟩ := List.cons.inj (List.cons.inj h).2
    exact ⟨congrArg Prod.snd (escapeLetters_injective _ hletter _ hmem hletters), hrest⟩
  · obtain rfl : letter = 'u' := (List.cons.inj (List.cons.inj h).2).1
    exact absurd hletter not_mem_escapeLetters
  · exact absurd (List.cons.inj h).1.symm hother
  · obtain rfl : 'u' = other := (List.cons.inj (List.cons.inj h).2).1
    exact absurd hmem not_mem_escapeLetters
  · obtain ⟨hvalue, hdigits⟩ := toDigits_control hlt
    obtain ⟨hsecond, hdigits'⟩ := toDigits_control hless
    simp only [List.append_assoc, List.cons_append, List.nil_append] at h
    obtain ⟨hsame, hrest⟩ := eq_of_stop (fun e => e = '}') (by simpa using fun e he => (hdigits e he).2.2)
      (by simpa using fun e he => (hdigits' e he).2.2) rfl rfl (List.cons.inj (List.cons.inj (List.cons.inj h).2).2).2
    rw [hsame, hsecond, Option.some.injEq] at hvalue
    exact ⟨Char.toNat_inj.mp hvalue.symm, (List.cons.inj hrest).2⟩

private theorem flatMap_escape_injective : Function.Injective (List.flatMap escape) := by
  have hne (c : Char) : escape c ≠ [] := by
    rcases escape_forms c with ⟨hc, -⟩ | ⟨_, hc, -⟩ | ⟨hc, -⟩ <;> simp [hc]
  intro text other h
  induction text generalizing other with
  | nil =>
    cases other with
    | nil => rfl
    | cons d ds => exact absurd (List.append_eq_nil_iff.mp h.symm).1 (hne d)
  | cons c cs ih =>
    cases other with
    | nil => exact absurd (List.append_eq_nil_iff.mp h).1 (hne c)
    | cons d ds =>
      obtain ⟨rfl, hrest⟩ := escape_append_inj h
      rw [ih hrest]

private theorem unescaped_plain (htext : ∀ c ∈ text, c ≠ '\\' ∧ c ≠ '"')
    (h : Unescaped rest ∧ Absent ['"'] rest) :
    Unescaped (text ++ rest) ∧ Absent ['"'] (text ++ rest) := by
  induction text with
  | nil => exact h
  | cons c cs ih =>
    obtain ⟨⟨hbackslash, hquote⟩, hcs⟩ := List.forall_mem_cons.mp htext
    obtain ⟨hunescaped, habsent⟩ := ih hcs
    exact ⟨.plain hbackslash hunescaped,
      habsent.plain hbackslash fun hbegins => hquote (List.cons_prefix_cons.mp hbegins).1.symm⟩

private theorem unescaped_escape (c : Char) (h : Unescaped rest ∧ Absent ['"'] rest) :
    Unescaped (escape c ++ rest) ∧ Absent ['"'] (escape c ++ rest) := by
  have hpair {letter : Char} {rest : List Char} (h : Unescaped rest ∧ Absent ['"'] rest) :
      Unescaped ('\\' :: letter :: rest) ∧ Absent ['"'] ('\\' :: letter :: rest) :=
    ⟨.escape letter h.1, h.2.escape (by decide)⟩
  rcases escape_forms c with ⟨hc, hbackslash, hquote⟩ | ⟨letter, hc, -⟩ | ⟨hc, hlt⟩
  · rw [hc]
    exact unescaped_plain (List.forall_mem_singleton.mpr ⟨hbackslash, hquote⟩) h
  · rw [hc]
    exact hpair h
  · have hcode : escape c ++ rest = '\\' :: 'u' :: ('{' :: Nat.toDigits 16 c.toNat ++ ['}'] ++ rest) := by
      simp [hc]
    rw [hcode]
    refine hpair (unescaped_plain (fun e he => ?_) h)
    simp only [List.cons_append, List.mem_cons, List.mem_append, List.not_mem_nil, or_false] at he
    rcases he with rfl | he | rfl
    · decide
    · obtain ⟨hbackslash, hquote, -⟩ := (toDigits_control hlt).2 e he
      exact ⟨hbackslash, hquote⟩
    · decide

private theorem quotes_quote : Quotes quote where
  injective text other h := flatMap_escape_injective (List.append_cancel_right (List.cons.inj h).2)
  delimited text := by
    refine ⟨text.flatMap escape, rfl, ?_⟩
    induction text with
    | nil => exact ⟨.nil, absent_nil⟩
    | cons c cs ih => exact unescaped_escape c ih

end Escapes

private theorem plain_of_isIdentifier {text : List Char} (h : isIdentifier text = true) : Plain text := by
  have hparts : text.all isIdentifierPart = true := by
    cases text with
    | nil => rfl
    | cons c cs =>
      obtain ⟨hstart, hcs⟩ := Bool.and_eq_true_iff.mp h
      exact Bool.and_eq_true_iff.mpr ⟨isIdentifierPart_of_start hstart, hcs⟩
  intro c hc
  have hpart := List.all_eq_true.mp hparts c hc
  constructor
  all_goals
    rintro rfl
    exact absurd hpart (by decide)

private theorem plain_toString (value : Int) : Plain (toString value).toList := by
  have hdigits (n : Nat) : Plain (Nat.repr n).toList := by
    rw [Nat.toList_repr]
    intro c hc
    have hdigit := Nat.isDigit_of_mem_toDigits (by decide) (by decide) hc
    constructor
    all_goals
      rintro rfl
      exact absurd hdigit (by decide)
  cases value with
  | ofNat n => exact hdigits n
  | negSucc n =>
    have hminus : (toString (Int.negSucc n)).toList = '-' :: (Nat.repr (n + 1)).toList := by
      rw [Int.toString_eq_repr, Int.repr, String.toList_append]
      rfl
    rw [hminus, Plain, List.forall_mem_cons]
    exact ⟨by decide, hdigits (n + 1)⟩

end Text

namespace Term

open Text (Plain Quotes)

mutual

/-- The term with one and the same position everywhere. -/
def unplaced : Term → Term
  | .assignment target value => .assignment (unplaced target) (unplaced value)
  | .expression terms => .expression (unplacedAll terms)
  | .reference name _ => .reference name ⟨0, 0, 0⟩
  | .methodCall name arguments _ => .methodCall name (unplacedAll arguments) ⟨0, 0, 0⟩
  | .element name index _ => .element name index ⟨0, 0, 0⟩
  | .dictionary _ => .dictionary ⟨0, 0, 0⟩
  | .integer value _ => .integer value ⟨0, 0, 0⟩
  | .float value _ => .float value ⟨0, 0, 0⟩
  | .text value _ => .text value ⟨0, 0, 0⟩
  | .boolean value _ => .boolean value ⟨0, 0, 0⟩

def unplacedAll : List Term → List Term
  | [] => []
  | term :: terms => unplaced term :: unplacedAll terms

end

/-- There is no float among the leaves. -/
def Floatless (leaves : List Term) : Prop := ∀ leaf ∈ leaves, ∀ value position, leaf ≠ .float value position

/-- The names of the leaves hold no punctuation, and there is no float among them. -/
def Legible (leaves : List Term) : Prop :=
  (∀ leaf ∈ leaves, ∀ name ∈ leaf.name?, Plain name.toList) ∧ Floatless leaves

theorem legible_append {leaves others : List Term} :
    Legible (leaves ++ others) ↔ Legible leaves ∧ Legible others := by
  simp only [Legible, Floatless, List.forall_mem_append]
  exact and_and_and_comm

theorem Legible.tail {leaf : Term} {leaves : List Term} (h : Legible (leaf :: leaves)) : Legible leaves :=
  (legible_append.mp (List.singleton_append ▸ h)).2

theorem Legible.name {leaf : Term} {leaves : List Term} {name : String} (h : Legible (leaf :: leaves))
    (hname : leaf.name? = some name) : Plain name.toList :=
  h.1 leaf List.mem_cons_self name hname

/-- The word that a term is written with. -/
def word : Term → String
  | .assignment _ _ => "Assignment"
  | .expression _ => "Expression"
  | .reference _ _ => "VariableReference"
  | .methodCall _ _ _ => "MethodReference"
  | .element _ _ _ => "ArrayReference"
  | .dictionary _ => "Dictionary"
  | .integer _ _ => "Integer"
  | .float _ _ => "Float"
  | .text _ _ => "Text"
  | .boolean _ _ => "Boolean"

def words : List String :=
  ["Assignment", "Expression", "VariableReference", "MethodReference", "ArrayReference", "Dictionary", "Integer",
    "Float", "Text", "Boolean"]

private theorem word_mem_words (term : Term) : term.word ∈ words := by
  cases term <;> simp [word, words]

private theorem eq_of_begins :
    ∀ word ∈ words, ∀ other ∈ words, word.toList <+: other.toList → word = other := by
  decide

section Forms

variable {name : String} {part last other final rest more : List Char} {parts : List (List Char)}

private theorem form_one (h : form name [part] ++ rest = form name [other] ++ more) :
    part ++ ')' :: rest = other ++ ')' :: more := by
  simpa [form] using h

private theorem form_two (h : form name [part, last] ++ rest = form name [other, final] ++ more) :
    part ++ ',' :: ' ' :: (last ++ ')' :: rest) = other ++ ',' :: ' ' :: (final ++ ')' :: more) := by
  simpa [form] using h

theorem listForm_nil : listForm [] ++ rest = '[' :: ']' :: rest := by
  simp [listForm]

theorem listForm_cons : listForm (part :: parts) ++ rest =
    '[' :: (part ++ (parts.flatMap ([',', ' '] ++ ·) ++ ']' :: rest)) := by
  have hparts : [',', ' '].intercalate (part :: parts) = part ++ parts.flatMap ([',', ' '] ++ ·) := by
    induction parts generalizing part with
    | nil => simp
    | cons next parts ih => rw [List.intercalate_cons_cons, ih, List.flatMap_cons]; simp
  simp [listForm, hparts]

end Forms

section Reading

variable {quote : List Char → List Char} {rest more : List Char}

private theorem writtenBy_word (quote : List Char → List Char) (term : Term) :
    ∃ others, term.writtenBy quote = term.word.toList ++ others := by
  cases term with
  | dictionary position => exact ⟨[], (List.append_nil _).symm⟩
  | _ => exact ⟨_, List.append_assoc ..⟩

theorem word_eq_of_append {term other : Term} (h : term.writtenBy quote ++ rest = other.writtenBy quote ++ more) :
    term.word = other.word := by
  have hbegins (term : Term) (rest : List Char) : term.word.toList <+: term.writtenBy quote ++ rest := by
    obtain ⟨others, hword⟩ := term.writtenBy_word quote
    rw [hword, List.append_assoc]
    exact List.prefix_append _ _
  have hterm := hbegins term rest
  have hother := hbegins other more
  rw [h] at hterm
  rcases Nat.le_total term.word.toList.length other.word.toList.length with hle | hle
  · exact eq_of_begins _ term.word_mem_words _ other.word_mem_words (List.prefix_of_prefix_length_le hterm hother hle)
  · exact (eq_of_begins _ other.word_mem_words _ term.word_mem_words
      (List.prefix_of_prefix_length_le hother hterm hle)).symm

private theorem writtenBy_ne_bracket {term : Term} : term.writtenBy quote ++ rest ≠ ']' :: more := by
  have hwords : ∀ word ∈ words, ∃ c cs, word.toList = c :: cs ∧ c ≠ ']' := by
    simp [words]
  intro h
  obtain ⟨others, hword⟩ := term.writtenBy_word quote
  obtain ⟨c, cs, htoList, hc⟩ := hwords _ term.word_mem_words
  rw [hword, htoList] at h
  exact hc (List.cons.inj h).1

private theorem name_eq {name other : String} {c d : Char} (hname : Plain name.toList)
    (hother : Plain other.toList)
    (hc : c = ',' ∨ c = ')') (hd : d = ',' ∨ d = ')') (h : name.toList ++ c :: rest = other.toList ++ d :: more) :
    name = other ∧ rest = more := by
  obtain ⟨hnames, hrest⟩ := hname.eq_of_stop hother hc hd h
  exact ⟨String.toList_inj.mp hnames, (List.cons.inj hrest).2⟩

private theorem integer_eq {value other : Int}
    (h : (toString value).toList ++ ')' :: rest = (toString other).toList ++ ')' :: more) :
    value = other ∧ rest = more := by
  obtain ⟨hvalues, hrest⟩ := name_eq (Text.plain_toString value) (Text.plain_toString other) (.inr rfl) (.inr rfl) h
  exact ⟨Int.repr_injective hvalues, hrest⟩

private theorem boolean_eq {value other : Bool}
    (h : (if value = true then "true" else "false").toList ++ ')' :: rest =
    (if other = true then "true" else "false").toList ++ ')' :: more) : value = other ∧ rest = more := by
  cases value <;> cases other <;> simp_all

mutual

theorem unplaced_eq_of_append (hquote : Quotes quote) (term : Term) {other : Term} (hterm : Legible term.leaves)
    (hother : Legible other.leaves) {rest more : List Char}
    (h : term.writtenBy quote ++ rest = other.writtenBy quote ++ more) :
    term.unplaced = other.unplaced ∧ rest = more := by
  have hword := word_eq_of_append h
  cases term with
  | assignment target value =>
    cases other with
    | assignment second last =>
      simp only [leaves, legible_append] at hterm hother
      change form "Assignment" [_, _] ++ rest = form "Assignment" [_, _] ++ more at h
      obtain ⟨htarget, hvalues⟩ := unplaced_eq_of_append hquote target hterm.1 hother.1 (form_two h)
      obtain ⟨hvalue, hrest⟩ := unplaced_eq_of_append hquote value hterm.2 hother.2
        (List.cons.inj (List.cons.inj hvalues).2).2
      exact ⟨by simp only [unplaced, htarget, hvalue], (List.cons.inj hrest).2⟩
    | _ => exact absurd hword (by simp [word])
  | expression terms =>
    cases other with
    | expression others =>
      change form "Expression" [_] ++ rest = form "Expression" [_] ++ more at h
      obtain ⟨hterms, hrest⟩ := unplacedAll_eq_of_append hquote terms hterm hother (form_one h)
      exact ⟨by simp only [unplaced, hterms], (List.cons.inj hrest).2⟩
    | _ => exact absurd hword (by simp [word])
  | reference name position =>
    cases other with
    | reference second place =>
      change form "VariableReference" [_] ++ rest = form "VariableReference" [_] ++ more at h
      obtain ⟨rfl, hrest⟩ := name_eq (hterm.name rfl) (hother.name rfl) (.inr rfl) (.inr rfl) (form_one h)
      exact ⟨rfl, hrest⟩
    | _ => exact absurd hword (by simp [word])
  | methodCall name arguments position =>
    cases other with
    | methodCall second others place =>
      change form "MethodReference" [_, _] ++ rest = form "MethodReference" [_, _] ++ more at h
      obtain ⟨rfl, hlists⟩ := name_eq (hterm.name rfl) (hother.name rfl) (.inl rfl) (.inl rfl) (form_two h)
      obtain ⟨harguments, hrest⟩ := unplacedAll_eq_of_append hquote arguments hterm.tail hother.tail
        (List.cons.inj hlists).2
      exact ⟨by simp only [unplaced, harguments], (List.cons.inj hrest).2⟩
    | _ => exact absurd hword (by simp [word])
  | element name index position =>
    cases other with
    | element second another place =>
      change form "ArrayReference" [_, _] ++ rest = form "ArrayReference" [_, _] ++ more at h
      obtain ⟨rfl, hindices⟩ := name_eq (hterm.name rfl) (hother.name rfl) (.inl rfl) (.inl rfl) (form_two h)
      obtain ⟨rfl, hrest⟩ := integer_eq (List.cons.inj hindices).2
      exact ⟨rfl, hrest⟩
    | _ => exact absurd hword (by simp [word])
  | dictionary position =>
    cases other with
    | dictionary place => exact ⟨rfl, List.append_cancel_left h⟩
    | _ => exact absurd hword (by simp [word])
  | integer value position =>
    cases other with
    | integer second place =>
      change form "Integer" [_] ++ rest = form "Integer" [_] ++ more at h
      obtain ⟨rfl, hrest⟩ := integer_eq (form_one h)
      exact ⟨rfl, hrest⟩
    | _ => exact absurd hword (by simp [word])
  | float value position => exact absurd rfl (hterm.2 _ (List.mem_singleton_self _) value position)
  | text value position =>
    cases other with
    | text second place =>
      change form "Text" [_] ++ rest = form "Text" [_] ++ more at h
      obtain ⟨hvalue, hrest⟩ := hquote.eq_of_append (form_one h)
      obtain rfl := String.toList_inj.mp hvalue
      exact ⟨rfl, (List.cons.inj hrest).2⟩
    | _ => exact absurd hword (by simp [word])
  | boolean value position =>
    cases other with
    | boolean second place =>
      change form "Boolean" [_] ++ rest = form "Boolean" [_] ++ more at h
      obtain ⟨rfl, hrest⟩ := boolean_eq (form_one h)
      exact ⟨rfl, hrest⟩
    | _ => exact absurd hword (by simp [word])

theorem unplacedAll_eq_of_append (hquote : Quotes quote) (terms : List Term) {others : List Term}
    (hterms : Legible (leavesAll terms)) (hothers : Legible (leavesAll others)) {rest more : List Char}
    (h : listForm (writtenAllBy quote terms) ++ rest = listForm (writtenAllBy quote others) ++ more) :
    unplacedAll terms = unplacedAll others ∧ rest = more := by
  cases terms with
  | nil =>
    cases others with
    | nil => exact ⟨rfl, List.append_cancel_left h⟩
    | cons other others =>
      rw [writtenAllBy, writtenAllBy, listForm_nil, listForm_cons] at h
      exact absurd (List.cons.inj h).2.symm writtenBy_ne_bracket
  | cons term terms =>
    cases others with
    | nil =>
      rw [writtenAllBy, writtenAllBy, listForm_nil, listForm_cons] at h
      exact absurd (List.cons.inj h).2 writtenBy_ne_bracket
    | cons other others =>
      rw [leavesAll, legible_append] at hterms hothers
      rw [writtenAllBy, writtenAllBy, listForm_cons, listForm_cons] at h
      obtain ⟨hterm, hlists⟩ := unplaced_eq_of_append hquote term hterms.1 hothers.1 (List.cons.inj h).2
      obtain ⟨hlist, hrest⟩ := unplacedMore_eq_of_append hquote terms hterms.2 hothers.2 hlists
      exact ⟨by rw [unplacedAll, unplacedAll, hterm, hlist], hrest⟩

theorem unplacedMore_eq_of_append (hquote : Quotes quote) (terms : List Term) {others : List Term}
    (hterms : Legible (leavesAll terms)) (hothers : Legible (leavesAll others)) {rest more : List Char}
    (h : (writtenAllBy quote terms).flatMap ([',', ' '] ++ ·) ++ ']' :: rest =
      (writtenAllBy quote others).flatMap ([',', ' '] ++ ·) ++ ']' :: more) :
    unplacedAll terms = unplacedAll others ∧ rest = more := by
  cases terms with
  | nil =>
    cases others with
    | nil => exact ⟨rfl, (List.cons.inj h).2⟩
    | cons other others => exact absurd (List.cons.inj h).1 (by decide)
  | cons term terms =>
    cases others with
    | nil => exact absurd (List.cons.inj h).1 (by decide)
    | cons other others =>
      rw [leavesAll, legible_append] at hterms hothers
      simp only [writtenAllBy, List.flatMap_cons, List.append_assoc, List.append_cancel_left_eq] at h
      obtain ⟨hterm, hlists⟩ := unplaced_eq_of_append hquote term hterms.1 hothers.1 h
      obtain ⟨hlist, hrest⟩ := unplacedMore_eq_of_append hquote terms hterms.2 hothers.2 hlists
      exact ⟨by rw [unplacedAll, unplacedAll, hterm, hlist], hrest⟩

end

end Reading

section Unplaced

variable (quote : List Char → List Char)

mutual

private theorem writtenBy_unplaced (term : Term) : term.unplaced.writtenBy quote = term.writtenBy quote := by
  cases term with
  | assignment target value =>
    exact congrArg₂ (fun target value => form "Assignment" [target, value]) (writtenBy_unplaced target)
      (writtenBy_unplaced value)
  | expression terms =>
    exact congrArg (fun terms => form "Expression" [listForm terms]) (writtenAllBy_unplacedAll terms)
  | methodCall name arguments position =>
    exact congrArg (fun terms => form "MethodReference" [name.toList, listForm terms])
      (writtenAllBy_unplacedAll arguments)
  | _ => rfl

private theorem writtenAllBy_unplacedAll (terms : List Term) :
    writtenAllBy quote (unplacedAll terms) = writtenAllBy quote terms := by
  cases terms with
  | nil => rfl
  | cons term terms =>
    rw [unplacedAll, writtenAllBy, writtenAllBy, writtenBy_unplaced term, writtenAllBy_unplacedAll terms]

end

end Unplaced

end Term

open Text (Quotes)

/-- The statement with one and the same position everywhere. -/
def FoldedStatement.unplaced (statement : FoldedStatement) : FoldedStatement := ⟨statement.term.unplaced⟩

theorem FoldedStatement.writtenBy_eq_iff {quote : List Char → List Char} (hquote : Quotes quote)
    {folded other : FoldedStatement} (hfolded : Term.Legible folded.term.leaves)
    (hother : Term.Legible other.term.leaves) :
    folded.writtenBy quote = other.writtenBy quote ↔ folded.unplaced = other.unplaced := by
  rw [unplaced, unplaced, FoldedStatement.mk.injEq]
  constructor
  · intro h
    exact (Term.unplaced_eq_of_append hquote folded.term hfolded hother
      (Term.form_one (congrArg (· ++ []) h))).1
  · intro h
    rw [writtenBy, writtenBy, ← Term.writtenBy_unplaced, h, Term.writtenBy_unplaced]

namespace Syntax

private theorem Token.word_of_name {lexeme : Lexeme} (h : (ofLexeme lexeme).kind = .name) :
    lexeme.kind = .word := by
  obtain ⟨kind, text⟩ := lexeme
  cases kind with
  | word => rfl
  | literal form => cases form <;> cases h
  | _ => cases h

theorem Identifier.isIdentifier {text : List Char} {name : String} {span : Span} (h : Identifier text name span) :
    Text.isIdentifier name.toList = true := by
  obtain ⟨before, token, after, htokens, hkind, htext, -⟩ := h
  have hmem : token ∈ Token.ofText text := htokens ▸ List.mem_append_right _ List.mem_cons_self
  rcases Layout.springs_tokens _ _ token hmem with hlayout | ⟨lexeme, hlexeme, rfl⟩
  · rw [hkind] at hlayout
    exact absurd hlayout (by decide)
  · rw [← htext, Token.text_ofLexeme]
    exact (Lexeme.isIdentifier_iff _).mpr
      ⟨lexeme, (Lexeme.ofText_text_of_mem hlexeme).2, Token.word_of_name hkind⟩

end Syntax

namespace Folding

open Syntax

private theorem renders_of_mem {text : List Char} {folded : FoldedStatement} (h : folded ∈ ofText text) :
    ∃ source, Renders text source folded := by
  obtain ⟨children, htree⟩ : ∃ children, (parse text).tree = .node .file children := ⟨_, rfl⟩
  have hspelled := spelled_parse text
  have hsettled := parse_settled text
  obtain ⟨source, hsource, hfolds⟩ := List.mem_filterMap.mp h
  change source ∈ (Ast.Script.ofTree (parse text).tree).statements at hsource
  rw [htree] at hspelled hsettled hsource
  obtain ⟨part, hpart, hstatement⟩ :=
    List.mem_filterMap.mp (show source ∈ (Ast.Part.ofTrees 0 children).filterMap Ast.Part.statement? from hsource)
  obtain ⟨start, tree, hmem, hread, htreeSpelled⟩ := hspelled.exists_of_mem hpart
  have hpartStatement : part = .statement source := by
    cases part <;> cases hstatement
    rfl
  cases hsettled with
  | node _ hchildren =>
    exact ⟨source, renders_of_tree (hchildren tree hmem) htreeSpelled (hread.trans hpartStatement) hfolds⟩

private theorem plain_name_of_mem {text : List Char} {folded : FoldedStatement} (h : folded ∈ ofText text)
    {leaf : Term}
    (hleaf : leaf ∈ folded.term.leaves) {name : String} (hname : name ∈ leaf.name?) : Text.Plain name.toList := by
  obtain ⟨source, hrenders⟩ := renders_of_mem h
  obtain ⟨span, hstems, -⟩ := hrenders.row.of_mem hleaf
  exact Text.plain_of_isIdentifier (hstems.named name hname).isIdentifier

/-- Two folded statements without floats, from whatever sources, are written the same only if they are the same
up to positions: the same terms with the same names, indices, integers, strings and booleans. This holds for
every way to quote strings that keeps different ones apart and escapes the quotes and backslashes within, such as
the one that is used. -/
theorem written_eq_iff {text source : List Char} {folded other : FoldedStatement} (hfolded : folded ∈ ofText text)
    (hother : other ∈ ofText source) (hfloatless : Term.Floatless folded.term.leaves)
    (hotherFloatless : Term.Floatless other.term.leaves) :
    (folded.written = other.written ↔ folded.unplaced = other.unplaced) ∧
      ∀ quote, Quotes quote →
        (folded.writtenBy quote = other.writtenBy quote ↔ folded.unplaced = other.unplaced) := by
  have hiff {quote : List Char → List Char} (hquote : Quotes quote) :
      folded.writtenBy quote = other.writtenBy quote ↔ folded.unplaced = other.unplaced :=
    FoldedStatement.writtenBy_eq_iff hquote ⟨fun leaf hleaf name => plain_name_of_mem hfolded hleaf, hfloatless⟩
      ⟨fun leaf hleaf name => plain_name_of_mem hother hleaf, hotherFloatless⟩
  exact ⟨hiff Text.quotes_quote, fun quote => hiff⟩

/-- A call with a string that looks like the end of the call, spaced and quoted in two ways. -/
theorem written_eq_iff_spaced :
    ∃ folded ∈ ofText "x = f(-1, 'a)')".toList, ∃ other ∈ ofText "x=f( -1,\"a)\" )".toList,
      Term.Floatless folded.term.leaves ∧ Term.Floatless other.term.leaves ∧
        folded.written =
          "Statement(Assignment(VariableReference(x), MethodReference(f, [Integer(-1), Text(\"a)\")])))".toList ∧
        folded.written = other.written ∧ folded.unplaced = other.unplaced := by
  obtain ⟨folded, other, hfolded, hother, hfloatless, hotherFloatless, hwritten, hunplaced⟩ : ∃ folded other,
      ofText "x = f(-1, 'a)')".toList = [folded] ∧ ofText "x=f( -1,\"a)\" )".toList = [other] ∧
        Term.Floatless folded.term.leaves ∧ Term.Floatless other.term.leaves ∧
        folded.written =
          "Statement(Assignment(VariableReference(x), MethodReference(f, [Integer(-1), Text(\"a)\")])))".toList ∧
        folded.unplaced = other.unplaced :=
    ⟨⟨.assignment (.reference "x" ⟨0, 0, 1⟩)
        (.methodCall "f" [.integer (-1) ⟨0, 6, 8⟩, .text "a)" ⟨0, 10, 14⟩] ⟨0, 4, 5⟩)⟩,
      ⟨.assignment (.reference "x" ⟨0, 0, 1⟩)
        (.methodCall "f" [.integer (-1) ⟨0, 5, 7⟩, .text "a)" ⟨0, 8, 12⟩] ⟨0, 2, 3⟩)⟩,
      by cbv, by cbv, by simp [Term.Floatless, Term.leaves, Term.leavesAll],
      by simp [Term.Floatless, Term.leaves, Term.leavesAll], by decide +kernel, rfl⟩
  have hmem : folded ∈ ofText "x = f(-1, 'a)')".toList := hfolded ▸ List.mem_singleton_self _
  have hotherMem : other ∈ ofText "x=f( -1,\"a)\" )".toList := hother ▸ List.mem_singleton_self _
  have hsame := (written_eq_iff hmem hotherMem hfloatless hotherFloatless).1.mpr hunplaced
  exact ⟨folded, hmem, other, hotherMem, hfloatless, hotherFloatless, hwritten, hsame, hunplaced⟩

end Folding

end QuantumScript
