import QuantumScript.Proofs.Lexing.Breaks
import QuantumScript.Proofs.Seams.Lexemes
import QuantumScript.Text.StringBody
/-!
# String literals

Where a string ends is told by the text alone: at the first delimiter that is not escaped, a backslash taking
the next character with it. Here the two scanners, the one for strings between single quotes and the one that
counts quotes in a row, are both compared with this rule, and so is the rule that strips a literal of its
marks and quotes.
-/

namespace QuantumScript

namespace Text

/-- What follows the text is not escaped: each backslash has taken the next character with it. -/
inductive Unescaped : List Char → Prop
  | nil : Unescaped []
  | escape (c : Char) {text : List Char} (h : Unescaped text) : Unescaped ('\\' :: c :: text)
  | plain {c : Char} (hc : c ≠ '\\') {text : List Char} (h : Unescaped text) : Unescaped (c :: text)

/-- The pattern stands nowhere in the text without being escaped. -/
def Absent (pattern text : List Char) : Prop := ∀ before, Unescaped before → ¬before ++ pattern <+: text

/-- Behind the body the pattern stands in the text for the first time without being escaped. -/
structure FirstAt (pattern body text : List Char) : Prop where
  unescaped : Unescaped body
  stands : body ++ pattern <+: text
  first : ∀ before, Unescaped before → before ++ pattern <+: text → body.length ≤ before.length

/-- There is no line break in the text that is not escaped. -/
def Unbroken (text : List Char) : Prop := Absent ['\n'] text ∧ Absent ['\r'] text

section Patterns

variable {c d : Char} {ds body text before : List Char}

private theorem before_escape (hd : d ≠ '\\') (hbefore : Unescaped before)
    (h : before ++ d :: ds <+: '\\' :: c :: text) :
    ∃ rest, before = '\\' :: c :: rest ∧ Unescaped rest ∧ rest ++ d :: ds <+: text := by
  cases hbefore with
  | nil => exact absurd (List.cons_prefix_cons.mp h).1 hd
  | escape e hrest =>
    obtain ⟨rfl, htext⟩ := List.cons_prefix_cons.mp (List.cons_prefix_cons.mp h).2
    exact ⟨_, rfl, hrest, htext⟩
  | plain hc hrest => exact absurd (List.cons_prefix_cons.mp h).1 hc

private theorem before_plain {pattern : List Char} (hc : c ≠ '\\') (hbefore : Unescaped before)
    (h : before ++ pattern <+: c :: text) :
    (before = [] ∧ pattern <+: c :: text) ∨ ∃ rest, before = c :: rest ∧ Unescaped rest ∧ rest ++ pattern <+: text := by
  cases hbefore with
  | nil => exact .inl ⟨rfl, h⟩
  | escape e hrest => exact absurd (List.cons_prefix_cons.mp h).1.symm hc
  | plain _ hrest =>
    obtain ⟨rfl, htext⟩ := List.cons_prefix_cons.mp h
    exact .inr ⟨_, rfl, hrest, htext⟩

private theorem absent_of_lt {pattern : List Char} (h : text.length < pattern.length) :
    Absent pattern text := by
  intro before _ hstands
  have hlength := hstands.length_le
  rw [List.length_append] at hlength
  omega

theorem absent_nil : Absent (d :: ds) [] := absent_of_lt (Nat.succ_pos _)

private theorem absent_backslash (hd : d ≠ '\\') : Absent (d :: ds) ['\\'] := by
  intro before hbefore h
  cases hbefore with
  | nil => exact hd (List.cons_prefix_cons.mp h).1
  | escape e hrest => simpa using (List.cons_prefix_cons.mp h).2
  | plain hc hrest => exact hc (List.cons_prefix_cons.mp h).1

theorem Absent.escape (hd : d ≠ '\\') (h : Absent (d :: ds) text) : Absent (d :: ds) ('\\' :: c :: text) := by
  intro before hbefore hstands
  obtain ⟨rest, -, hrest, hstands⟩ := before_escape hd hbefore hstands
  exact h rest hrest hstands

theorem Absent.plain {pattern : List Char} (hc : c ≠ '\\') (hpattern : ¬pattern <+: c :: text)
    (h : Absent pattern text) : Absent pattern (c :: text) := by
  intro before hbefore hstands
  rcases before_plain hc hbefore hstands with ⟨-, hstands⟩ | ⟨rest, -, hrest, hstands⟩
  · exact hpattern hstands
  · exact h rest hrest hstands

theorem FirstAt.nil {pattern : List Char} (h : pattern <+: text) : FirstAt pattern [] text :=
  ⟨.nil, h, fun _ _ _ => Nat.zero_le _⟩

theorem FirstAt.escape (hd : d ≠ '\\') (h : FirstAt (d :: ds) body text) :
    FirstAt (d :: ds) ('\\' :: c :: body) ('\\' :: c :: text) := by
  refine ⟨.escape c h.unescaped, (List.prefix_cons_inj _).mpr ((List.prefix_cons_inj _).mpr h.stands), ?_⟩
  intro before hbefore hstands
  obtain ⟨rest, rfl, hrest, hstands⟩ := before_escape hd hbefore hstands
  exact Nat.succ_le_succ (Nat.succ_le_succ (h.first rest hrest hstands))

theorem FirstAt.plain {pattern : List Char} (hc : c ≠ '\\') (hpattern : ¬pattern <+: c :: text)
    (h : FirstAt pattern body text) : FirstAt pattern (c :: body) (c :: text) := by
  refine ⟨.plain hc h.unescaped, (List.prefix_cons_inj _).mpr h.stands, ?_⟩
  intro before hbefore hstands
  rcases before_plain hc hbefore hstands with ⟨-, hstands⟩ | ⟨rest, rfl, hrest, hstands⟩
  · exact absurd hstands hpattern
  · exact Nat.succ_le_succ (h.first rest hrest hstands)

theorem FirstAt.absent {pattern : List Char} (h : FirstAt pattern body text) (hpattern : pattern ≠ []) :
    Absent pattern body := by
  intro before hbefore hstands
  have hlength := hstands.length_le
  have hfirst := h.first before hbefore ((hstands.trans (List.prefix_append _ _)).trans h.stands)
  have hpos := List.length_pos_iff.mpr hpattern
  rw [List.length_append] at hlength
  omega

private theorem Unbroken.of_plain (hescape : c ≠ '\\') (hbreak : ¬(c = '\n' || c = '\r') = true)
    (h : Unbroken text) :
    Unbroken (c :: text) := by
  rw [Bool.or_eq_true, decide_eq_true_eq, decide_eq_true_eq, not_or] at hbreak
  refine ⟨h.1.plain hescape fun hstands => ?_, h.2.plain hescape fun hstands => ?_⟩
  · exact hbreak.1 (List.cons_prefix_cons.mp hstands).1.symm
  · exact hbreak.2 (List.cons_prefix_cons.mp hstands).1.symm

private theorem Unbroken.of_escape (h : Unbroken text) : Unbroken ('\\' :: c :: text) :=
  ⟨h.1.escape (by decide), h.2.escape (by decide)⟩

end Patterns

section Runs

variable {quote c : Char} {body text : List Char} {count : Nat}

private theorem replicate_append_cons :
    List.replicate count quote ++ quote :: text = .replicate (count + 1) quote ++ text := by
  rw [List.replicate_succ', List.append_assoc]
  rfl

private theorem not_prefix_run (hcount : count ≤ 2) (hc : c ≠ quote) :
    ¬List.replicate 3 quote <+: List.replicate count quote ++ c :: text := by
  intro hstands
  match count, hcount with
  | 0, _ => exact hc (List.cons_prefix_cons.mp hstands).1.symm
  | 1, _ => exact hc (List.cons_prefix_cons.mp (List.cons_prefix_cons.mp hstands).2).1.symm
  | 2, _ =>
    exact hc (List.cons_prefix_cons.mp (List.cons_prefix_cons.mp (List.cons_prefix_cons.mp hstands).2).2).1.symm

theorem FirstAt.run (hquote : quote ≠ '\\') (hcount : count ≤ 2) (hc : c ≠ quote)
    (h : FirstAt (.replicate 3 quote) body (c :: text)) :
    FirstAt (.replicate 3 quote) (.replicate count quote ++ body) (.replicate count quote ++ c :: text) := by
  induction count with
  | zero => exact h
  | succ count ih => exact (ih (by omega)).plain hquote (not_prefix_run hcount hc)

theorem Absent.run (hquote : quote ≠ '\\') (hcount : count ≤ 2) (hc : c ≠ quote)
    (h : Absent (.replicate 3 quote) (c :: text)) :
    Absent (.replicate 3 quote) (.replicate count quote ++ c :: text) := by
  induction count with
  | zero => exact h
  | succ count ih => exact (ih (by omega)).plain hquote (not_prefix_run hcount hc)

end Runs

end Text

namespace Lexeme

open Text

section Scanners

variable {quote : Char} {cs : List Char} {n : Nat}

private theorem eq_of_lengthen {terminated : Bool} {more : Nat} {piece : Bool × Nat}
    (h : lengthen more piece = (terminated, n)) : ∃ k, piece = (terminated, k) ∧ n = k + more := by
  obtain ⟨rfl, rfl⟩ := Prod.mk.inj h
  exact ⟨piece.2, rfl, rfl⟩

private theorem singleQuoted_closed (hquote : quote ≠ '\\') (h : singleQuoted quote cs = (true, n)) :
    ∃ body, cs.take n = body ++ [quote] ∧ FirstAt [quote] body cs ∧ Unbroken body := by
  fun_induction singleQuoted quote cs generalizing n with
  | case1 => cases h
  | case2 rest =>
    cases h
    exact ⟨[], rfl, .nil (List.prefix_append [quote] rest), absent_nil, absent_nil⟩
  | case3 => cases h
  | case4 c rest hne ih =>
    obtain ⟨k, hk, rfl⟩ := eq_of_lengthen h
    obtain ⟨body, htake, hfirst, hunbroken⟩ := ih hk
    exact ⟨'\\' :: c :: body, congrArg ('\\' :: c :: ·) htake, hfirst.escape hquote, hunbroken.of_escape⟩
  | case5 => cases h
  | case6 c rest hne hescape hbreak ih =>
    obtain ⟨k, hk, rfl⟩ := eq_of_lengthen h
    obtain ⟨body, htake, hfirst, hunbroken⟩ := ih hk
    refine ⟨c :: body, congrArg (c :: ·) htake, hfirst.plain hescape fun hstands => ?_,
      hunbroken.of_plain hescape hbreak⟩
    exact hne (List.cons_prefix_cons.mp hstands).1.symm

private theorem singleQuoted_open (hquote : quote ≠ '\\') (h : singleQuoted quote cs = (false, n)) :
    Absent [quote] (cs.take n) ∧ Unbroken (cs.take n) ∧
      (cs.drop n = [] ∨ ∃ c, (c = '\n' ∨ c = '\r') ∧ FirstAt [c] (cs.take n) cs) := by
  fun_induction singleQuoted quote cs generalizing n with
  | case1 =>
    cases h
    exact ⟨absent_nil, ⟨absent_nil, absent_nil⟩, .inl rfl⟩
  | case2 => cases h
  | case3 =>
    cases h
    exact ⟨absent_backslash hquote, ⟨absent_backslash (by decide), absent_backslash (by decide)⟩, .inl rfl⟩
  | case4 c rest hne ih =>
    obtain ⟨k, hk, rfl⟩ := eq_of_lengthen h
    obtain ⟨habsent, hunbroken, hend⟩ := ih hk
    refine ⟨habsent.escape hquote, hunbroken.of_escape, hend.imp_right ?_⟩
    rintro ⟨d, hd, hfirst⟩
    exact ⟨d, hd, hfirst.escape (by rcases hd with rfl | rfl <;> decide)⟩
  | case5 c rest hne hescape hbreak =>
    cases h
    rw [Bool.or_eq_true, decide_eq_true_eq, decide_eq_true_eq] at hbreak
    exact ⟨absent_nil, ⟨absent_nil, absent_nil⟩, .inr ⟨c, hbreak, .nil (List.prefix_append [c] rest)⟩⟩
  | case6 c rest hne hescape hbreak ih =>
    obtain ⟨k, hk, rfl⟩ := eq_of_lengthen h
    obtain ⟨habsent, hunbroken, hend⟩ := ih hk
    refine ⟨habsent.plain hescape fun hstands => hne (List.cons_prefix_cons.mp hstands).1.symm,
      hunbroken.of_plain hescape hbreak, hend.imp_right ?_⟩
    rintro ⟨d, hd, hfirst⟩
    refine ⟨d, hd, hfirst.plain hescape fun hstands => hbreak ?_⟩
    obtain rfl := (List.cons_prefix_cons.mp hstands).1
    simpa using hd

/-- A string between three quotes ends behind the first three in a row that are not escaped. The quotes that
have just been read count. -/
private theorem tripleQuoted_closed (hquote : quote ≠ '\\') {run : Nat} (hrun : run ≤ 2)
    (h : tripleQuoted quote run cs = (true, n)) :
    ∃ body, .replicate run quote ++ cs.take n = body ++ .replicate 3 quote ∧
      FirstAt (.replicate 3 quote) body (.replicate run quote ++ cs) := by
  fun_induction tripleQuoted quote run cs generalizing n with
  | case1 => cases h
  | case2 => cases h
  | case3 run c rest ih =>
    obtain ⟨k, hk, rfl⟩ := eq_of_lengthen h
    obtain ⟨body, htake, hfirst⟩ := ih (Nat.zero_le _) hk
    refine ⟨.replicate run quote ++ '\\' :: c :: body, ?_, (hfirst.escape hquote).run hquote hrun hquote.symm⟩
    rw [List.append_assoc]
    exact congrArg (fun cs => List.replicate run quote ++ '\\' :: c :: cs) htake
  | case4 rest hescape =>
    cases h
    exact ⟨[], rfl, .nil (List.prefix_append (.replicate 3 quote) rest)⟩
  | case5 run rest hne hescape ih =>
    obtain ⟨k, hk, rfl⟩ := eq_of_lengthen h
    obtain ⟨body, htake, hfirst⟩ := ih (by omega) hk
    refine ⟨body, ?_, ?_⟩
    · rw [List.take_succ_cons, replicate_append_cons]
      exact htake
    · rw [replicate_append_cons]
      exact hfirst
  | case6 run c rest hescape hne ih =>
    obtain ⟨k, hk, rfl⟩ := eq_of_lengthen h
    obtain ⟨body, htake, hfirst⟩ := ih (Nat.zero_le _) hk
    have hplain : FirstAt (.replicate 3 quote) (c :: body) (c :: rest) :=
      hfirst.plain hescape (not_prefix_run (Nat.zero_le 2) hne)
    refine ⟨.replicate run quote ++ c :: body, ?_, hplain.run hquote hrun hne⟩
    rw [List.append_assoc]
    exact congrArg (fun cs => List.replicate run quote ++ c :: cs) htake

private theorem tripleQuoted_open (hquote : quote ≠ '\\') {run : Nat} (hrun : run ≤ 2)
    (h : tripleQuoted quote run cs = (false, n)) :
    n = cs.length ∧ Absent (.replicate 3 quote) (.replicate run quote ++ cs) := by
  fun_induction tripleQuoted quote run cs generalizing n with
  | case1 run =>
    cases h
    refine ⟨rfl, absent_of_lt ?_⟩
    rw [List.append_nil, List.length_replicate, List.length_replicate]
    omega
  | case2 =>
    cases h
    exact ⟨rfl, (absent_backslash hquote).run hquote hrun hquote.symm⟩
  | case3 run c rest ih =>
    obtain ⟨k, hk, rfl⟩ := eq_of_lengthen h
    obtain ⟨rfl, habsent⟩ := ih (Nat.zero_le _) hk
    exact ⟨rfl, (habsent.escape hquote).run hquote hrun hquote.symm⟩
  | case4 => cases h
  | case5 run rest hne hescape ih =>
    obtain ⟨k, hk, rfl⟩ := eq_of_lengthen h
    obtain ⟨rfl, habsent⟩ := ih (by omega) hk
    refine ⟨rfl, ?_⟩
    rw [replicate_append_cons]
    exact habsent
  | case6 run c rest hescape hne ih =>
    obtain ⟨k, hk, rfl⟩ := eq_of_lengthen h
    obtain ⟨rfl, habsent⟩ := ih (Nat.zero_le _) hk
    have hplain : Absent (.replicate 3 quote) (c :: rest) :=
      habsent.plain hescape (not_prefix_run (Nat.zero_le 2) hne)
    exact ⟨rfl, hplain.run hquote hrun hne⟩

/-- One or three quotes. -/
def delimiter (triple : Bool) (quote : Char) : List Char := .replicate (if triple then 3 else 1) quote

private theorem quoted_cases {terminated triple : Bool} (h : quoted quote cs = (.quoted terminated triple, n)) :
    (triple = true ∧ ∃ rest k, cs = quote :: quote :: rest ∧ tripleQuoted quote 0 rest = (terminated, k) ∧ n = k + 2) ∨
      triple = false ∧ singleQuoted quote cs = (terminated, n) := by
  unfold quoted at h
  split at h
  · rename_i a b rest
    split at h
    · rename_i hquotes
      rw [Bool.and_eq_true, decide_eq_true_eq, decide_eq_true_eq] at hquotes
      obtain ⟨rfl, rfl⟩ := hquotes
      cases h
      exact .inl ⟨rfl, rest, _, rfl, rfl, rfl⟩
    · cases h
      exact .inr ⟨rfl, rfl⟩
  · cases h
    exact .inr ⟨rfl, rfl⟩

private theorem quoted_terminated (hquote : quote ≠ '\\') {triple : Bool}
    (h : quoted quote cs = (.quoted true triple, n)) :
    ∃ body, quote :: cs.take n = delimiter triple quote ++ body ++ delimiter triple quote ∧
      FirstAt (delimiter triple quote) body (body ++ delimiter triple quote ++ cs.drop n) ∧
      (triple = false → Unbroken body) := by
  rcases quoted_cases h with ⟨rfl, rest, k, rfl, hscan, rfl⟩ | ⟨rfl, hscan⟩
  · obtain ⟨body, htake, hfirst⟩ := tripleQuoted_closed hquote (Nat.zero_le 2) hscan
    have htake : rest.take k = body ++ .replicate 3 quote := htake
    refine ⟨body, congrArg (quote :: quote :: quote :: ·) htake, ?_, nofun⟩
    rw [delimiter, if_pos rfl, ← htake, List.drop_succ_cons, List.drop_succ_cons, List.take_append_drop]
    exact hfirst
  · obtain ⟨body, htake, hfirst, hunbroken⟩ := singleQuoted_closed hquote hscan
    refine ⟨body, congrArg (quote :: ·) htake, ?_, fun _ => hunbroken⟩
    have hdelimiter : body ++ delimiter false quote = cs.take n := htake.symm
    rw [hdelimiter, List.take_append_drop]
    exact hfirst

private theorem quoted_open (hquote : quote ≠ '\\') {triple : Bool}
    (h : quoted quote cs = (.quoted false triple, n)) :
    ∃ body, quote :: cs.take n = delimiter triple quote ++ body ∧ Absent (delimiter triple quote) body ∧
      (triple = true → cs.drop n = []) ∧
      (triple = false → Unbroken body ∧
        (cs.drop n = [] ∨ ∃ c, (c = '\n' ∨ c = '\r') ∧ FirstAt [c] body (body ++ cs.drop n))) := by
  rcases quoted_cases h with ⟨rfl, rest, k, rfl, hscan, rfl⟩ | ⟨rfl, hscan⟩
  · obtain ⟨rfl, habsent⟩ := tripleQuoted_open hquote (Nat.zero_le 2) hscan
    refine ⟨rest, ?_, habsent, fun _ => List.drop_length, nofun⟩
    rw [List.take_succ_cons, List.take_succ_cons, List.take_length]
    rfl
  · obtain ⟨habsent, hunbroken, hend⟩ := singleQuoted_open hquote hscan
    refine ⟨cs.take n, rfl, habsent, nofun, fun _ => ⟨hunbroken, ?_⟩⟩
    rwa [List.take_append_drop]

end Scanners

section Marks

variable {c quote : Char} {cs : List Char} {n : Nat} {terminated triple : Bool}

/-- The form is not that of a string. -/
private def IsNumeric (form : LiteralForm) : Prop := ∀ terminated triple, form ≠ .quoted terminated triple

private theorem isNumeric_exponentOr {form : LiteralForm} (h : IsNumeric form) :
    IsNumeric (exponentOr form cs).1 := by
  unfold exponentOr
  split
  · exact nofun
  · exact h

private theorem isNumeric_imaginaryOr {number : LiteralForm × Nat} (h : IsNumeric number.1) :
    IsNumeric (imaginaryOr number cs).1 := by
  unfold imaginaryOr
  split
  · exact nofun
  · exact h

private theorem isNumeric_decimal (cs : List Char) : IsNumeric (decimal cs).1 := by
  unfold decimal
  refine isNumeric_imaginaryOr ?_
  split
  · split
    · exact nofun
    · exact isNumeric_exponentOr nofun
  · exact isNumeric_exponentOr nofun

private theorem isNumeric_number (c : Char) (cs : List Char) : IsNumeric (number c cs).1 := by
  unfold number
  split
  · split
    · exact nofun
    · exact isNumeric_decimal _
  · exact isNumeric_decimal _

private theorem isNumeric_pointed (cs : List Char) : IsNumeric (pointed cs).1 :=
  isNumeric_imaginaryOr (isNumeric_exponentOr nofun)

/-- The lexeme begins with marks, at most two of them, and a quote, from which on it is scanned. -/
private structure Begins (c : Char) (cs : List Char) (form : LiteralForm) (n : Nat) (marks : List Char) (quote : Char)
    (rest : List Char) (k : Nat) : Prop where
  few : marks.length ≤ 2
  marked : ∀ mark ∈ marks, isStringMark mark = true
  quotes : isQuote quote = true
  scanned : quoted quote rest = (form, k)
  own : c :: cs.take n = marks ++ quote :: rest.take k
  after : cs.drop n = rest.drop k

private theorem begins_of_markedString {form : LiteralForm} (h : markedString? c cs = some (form, n)) :
    ∃ marks quote rest k, Begins c cs form n marks quote rest k := by
  unfold markedString? at h
  split at h
  · rename_i hmark
    cases cs with
    | nil => cases h
    | cons q rest =>
      dsimp only at h
      split at h
      · rename_i hquote
        cases h
        exact ⟨[c], q, rest, _, by simp, by simpa using hmark, hquote, rfl, rfl, rfl⟩
      · cases rest with
        | nil => cases h
        | cons r rest =>
          dsimp only at h
          split at h
          · rename_i hboth
            obtain ⟨hsecond, hquote⟩ := Bool.and_eq_true_iff.mp hboth
            cases h
            exact ⟨[c, q], r, rest, _, by simp, by simp [hmark, hsecond], hquote, rfl, rfl, rfl⟩
          · cases h
  · cases h

private theorem begins_of_measure (h : measure c cs = (.literal (.quoted terminated triple), n)) :
    ∃ marks quote rest k, Begins c cs (.quoted terminated triple) n marks quote rest k := by
  have hliteral {piece : LiteralForm × Nat}
      (h : some (Kind.literal piece.1, piece.2) = some (.literal (.quoted terminated triple), n)) :
      piece = (.quoted terminated triple, n) := by
    obtain ⟨hkind, hlength⟩ := Prod.mk.inj (Option.some.inj h)
    exact Prod.ext (Kind.literal.inj hkind) hlength
  rcases measure_cases h with hfiller | hoperand | hother
  · unfold filler? at hfiller
    repeat' split at hfiller
    all_goals simp_all
  · unfold operand? at hoperand
    split at hoperand
    · split at hoperand
      · rename_i form k hmarked
        cases hoperand
        exact begins_of_markedString hmarked
      · cases hoperand
    split at hoperand
    · exact absurd (congrArg Prod.fst (hliteral hoperand)) (isNumeric_number c cs terminated triple)
    split at hoperand
    · exact absurd (congrArg Prod.fst (hliteral hoperand)) (isNumeric_pointed cs terminated triple)
    split at hoperand
    · rename_i hquote
      exact ⟨[], c, cs, n, Nat.zero_le 2, nofun, hquote, hliteral hoperand, rfl, rfl⟩
    · cases hoperand
  · unfold symbolOr at hother
    split at hother <;> cases hother

end Marks

private theorem measure_of_split {text : List Char} {before after : List Lexeme} {lexeme : Lexeme}
    (h : ofText text = before ++ lexeme :: after) :
    ∃ c cs n, measure c cs = (lexeme.kind, n) ∧ lexeme.text = c :: cs.take n ∧
      after.flatMap Lexeme.text = cs.drop n := by
  fun_induction ofText text generalizing before with
  | case1 => simp at h
  | case2 c cs kind n hmeasure ih =>
    cases before with
    | nil =>
      obtain ⟨rfl, rfl⟩ := List.cons.inj h
      exact ⟨c, cs, n, hmeasure, rfl, flatMap_text_ofText _⟩
    | cons first before => exact ih (List.cons.inj h).2

end Lexeme

namespace Text

section Bodies

variable {marks body : List Char} {quote : Char} {triple : Bool}

private theorem isDelimited_self (delimiter body : List Char) :
    isDelimited (delimiter ++ body ++ delimiter) delimiter = true := by
  have hstands : delimiter.isPrefixOf (delimiter ++ body ++ delimiter) = true :=
    List.isPrefixOf_iff_prefix.mpr (by rw [List.append_assoc]; exact List.prefix_append _ _)
  have hsuffix : delimiter.isSuffixOf (delimiter ++ body ++ delimiter) = true :=
    List.isSuffixOf_iff_suffix.mpr (List.suffix_append _ _)
  rw [isDelimited, hstands, hsuffix, Bool.and_true, Bool.and_true, decide_eq_true_eq, List.length_append,
    List.length_append]
  omega

private theorem isDelimited_of_not_prefix {text delimiter : List Char} (h : ¬delimiter <+: text) :
    isDelimited text delimiter = false := by
  have hstands : delimiter.isPrefixOf text = false := by
    rwa [← Bool.not_eq_true, List.isPrefixOf_iff_prefix]
  rw [isDelimited, hstands, Bool.and_false, Bool.false_and]

/-- Of the delimiters the one that a string is closed with is the first that encloses it. Single quotes are not
taken for three of them, since what stands between them does not begin with one. -/
private theorem find?_delimiters (hquote : quote = '"' ∨ quote = '\'')
    (hbody : triple = false → ¬[quote] <+: body) :
    delimiters.find? (isDelimited (Lexeme.delimiter triple quote ++ body ++ Lexeme.delimiter triple quote)) =
      some (Lexeme.delimiter triple quote) := by
  have hself := isDelimited_self (Lexeme.delimiter triple quote) body
  have hother {other : Char} (hne : other ≠ quote) (others : List Char) :
      isDelimited (Lexeme.delimiter triple quote ++ body ++ Lexeme.delimiter triple quote) (other :: others) = false := by
    refine isDelimited_of_not_prefix fun hstands => hne ?_
    cases triple <;> exact (List.cons_prefix_cons.mp hstands).1
  cases triple with
  | true =>
    rcases hquote with rfl | rfl
    · exact List.find?_cons_of_pos hself
    · rw [delimiters, List.find?_cons_of_neg (by rw [hother (by decide)]; decide)]
      exact List.find?_cons_of_pos hself
  | false =>
    have hthree : isDelimited (Lexeme.delimiter false quote ++ body ++ Lexeme.delimiter false quote)
        [quote, quote, quote] = false := by
      refine isDelimited_of_not_prefix fun hstands => ?_
      have htail : [quote, quote] <+: body ++ [quote] := (List.cons_prefix_cons.mp hstands).2
      cases body with
      | nil => simpa using htail.length_le
      | cons c body =>
        obtain ⟨rfl, -⟩ := List.cons_prefix_cons.mp htail
        exact hbody rfl (List.prefix_append [quote] body)
    rcases hquote with rfl | rfl
    · rw [delimiters, List.find?_cons_of_neg (by rw [hthree]; decide),
        List.find?_cons_of_neg (by rw [hother (by decide)]; decide)]
      exact List.find?_cons_of_pos hself
    · rw [delimiters, List.find?_cons_of_neg (by rw [hother (by decide)]; decide),
        List.find?_cons_of_neg (by rw [hthree]; decide), List.find?_cons_of_neg (by rw [hother (by decide)]; decide)]
      exact List.find?_cons_of_pos hself

private theorem stringBody_delimited (hmarks : ∀ mark ∈ marks, mark.isAlpha = true)
    (hquote : quote = '"' ∨ quote = '\'')
    (hbody : triple = false → ¬[quote] <+: body) :
    stringBody (marks ++ Lexeme.delimiter triple quote ++ body ++ Lexeme.delimiter triple quote) = body := by
  have hdrop : (marks ++ Lexeme.delimiter triple quote ++ body ++ Lexeme.delimiter triple quote).dropWhile
      Char.isAlpha = Lexeme.delimiter triple quote ++ body ++ Lexeme.delimiter triple quote := by
    rw [List.append_assoc, List.append_assoc, List.dropWhile_append_of_pos hmarks, ← List.append_assoc]
    have halpha : quote.isAlpha = false := by rcases hquote with rfl | rfl <;> rfl
    cases triple <;> exact List.dropWhile_cons_of_neg (by simp [halpha])
  rw [stringBody, hdrop, find?_delimiters hquote hbody]
  dsimp only
  rw [List.append_assoc, List.drop_left, List.length_append, List.length_append,
    show ∀ m n : Nat, m + (n + m) - 2 * m = n by omega, List.take_left]

end Bodies

end Text

namespace Lexeme

open Text

/-- The marks and the quotes that a string begins with: up to two of the letters r, b, u and f in either case,
and then one quote or, as the flag tells, three equal ones. -/
structure Opens (triple : Bool) (marks quotes : List Char) : Prop where
  few : marks.length ≤ 2
  marked : ∀ mark ∈ marks, mark.toLower ∈ ['r', 'b', 'u', 'f']
  quoted : ∃ quote ∈ ['"', '\''], quotes = .replicate (if triple then 3 else 1) quote

/-- A string that is closed and what it is made of, where `rest` follows it. -/
structure ClosedString (triple : Bool) (text rest marks quotes body : List Char) : Prop
    extends Opens triple marks quotes where
  spelled : text = marks ++ quotes ++ body ++ quotes
  absent : Absent quotes body
  unbroken : triple = false → Unbroken body
  /-- It ends at the first place where it can be closed. -/
  first : FirstAt quotes body (body ++ quotes ++ rest)
  stripped : stringBody text = body

/-- A string that is not closed and what it is made of, where `rest` follows it. -/
structure OpenString (triple : Bool) (text rest marks quotes body : List Char) : Prop
    extends Opens triple marks quotes where
  spelled : text = marks ++ quotes ++ body
  absent : Absent quotes body
  /-- Between three quotes it goes on to the end of the text. -/
  endless : triple = true → rest = []
  /-- Between single quotes it goes on to the first line break that is not escaped, or to the end of the text. -/
  unbroken : triple = false →
    Unbroken body ∧ (rest = [] ∨ ∃ c ∈ ['\n', '\r'], FirstAt [c] body (body ++ rest))

section Opens

variable {c quote : Char} {triple : Bool} {marks : List Char}

private theorem toLower_of_isStringMark (h : isStringMark c = true) :
    c.toLower ∈ ['r', 'b', 'u', 'f'] ∧ c.isAlpha = true := by
  simp only [isStringMark, Bool.or_eq_true, decide_eq_true_eq] at h
  rcases h with ((((((rfl | rfl) | rfl) | rfl) | rfl) | rfl) | rfl) | rfl <;> decide

private theorem quote_cases (h : isQuote quote = true) : quote = '"' ∨ quote = '\'' := by
  simpa [isQuote] using h

private theorem opens_of_isQuote (triple : Bool) (hfew : marks.length ≤ 2)
    (hmarks : ∀ mark ∈ marks, isStringMark mark = true) (hquote : isQuote quote = true) :
    Opens triple marks (delimiter triple quote) :=
  ⟨hfew, fun mark hmem => (toLower_of_isStringMark (hmarks mark hmem)).1, quote,
    by simpa using quote_cases hquote, rfl⟩

end Opens

/-- Lexer and folder agree on strings. A string literal that is cut from a text and is closed consists of
marks, a delimiter, a body and the delimiter again. The body does not hold the delimiter unless escaped, nor,
between single quotes, a line break; the literal ends at the first place where the delimiter stands; and the
body is what the literal is stripped to. A literal that is not closed goes on to the end of the text or, between
single quotes, to the first line break that is not escaped. -/
theorem strings_delimited {text : List Char} {before after : List Lexeme} {lexeme : Lexeme} {terminated triple : Bool}
    (h : ofText text = before ++ lexeme :: after) (hkind : lexeme.kind = .literal (.quoted terminated triple)) :
    ∃ marks quotes body,
      if terminated then ClosedString triple lexeme.text (after.flatMap Lexeme.text) marks quotes body
      else OpenString triple lexeme.text (after.flatMap Lexeme.text) marks quotes body := by
  obtain ⟨c, cs, n, hmeasure, htext, hafter⟩ := measure_of_split h
  rw [hkind] at hmeasure
  obtain ⟨marks, quote, rest, k, hbegins⟩ := begins_of_measure hmeasure
  have hopens := opens_of_isQuote triple hbegins.few hbegins.marked hbegins.quotes
  have hquote := quote_cases hbegins.quotes
  have hescape : quote ≠ '\\' := by rcases hquote with rfl | rfl <;> decide
  have hscanned := hbegins.scanned
  rw [htext, hafter, hbegins.own, hbegins.after]
  cases terminated with
  | true =>
    obtain ⟨body, htake, hfirst, hunbroken⟩ := quoted_terminated hescape hscanned
    have habsent : Absent (delimiter triple quote) body := hfirst.absent (by cases triple <;> exact List.cons_ne_nil _ _)
    have hspelled : marks ++ quote :: rest.take k =
        marks ++ delimiter triple quote ++ body ++ delimiter triple quote := by
      rw [htake, List.append_assoc, List.append_assoc, List.append_assoc]
    refine ⟨marks, delimiter triple quote, body, hopens, hspelled, habsent, hunbroken, hfirst, ?_⟩
    rw [hspelled]
    refine stringBody_delimited (fun mark hmem => (toLower_of_isStringMark (hbegins.marked mark hmem)).2) hquote ?_
    rintro rfl
    exact habsent [] .nil
  | false =>
    obtain ⟨body, htake, habsent, hendless, hunbroken⟩ := quoted_open hescape hscanned
    refine ⟨marks, delimiter triple quote, body, hopens, ?_, habsent, hendless, ?_⟩
    · rw [htake, List.append_assoc]
    · simpa using hunbroken

/-- A string with two marks whose body holds a quote and ends with an escaped one. -/
theorem strings_delimited_marked :
    ofText "x=rb'''a'\\''''".toList =
      [⟨.word, ['x']⟩, ⟨.symbol .equals, ['=']⟩] ++
        ⟨.literal (.quoted true true), "rb'''a'\\''''".toList⟩ :: [] ∧
      ∃ marks quotes body, ClosedString true "rb'''a'\\''''".toList [] marks quotes body := by
  have hsplit : ofText "x=rb'''a'\\''''".toList =
      [⟨.word, ['x']⟩, ⟨.symbol .equals, ['=']⟩] ++
        ⟨.literal (.quoted true true), "rb'''a'\\''''".toList⟩ :: [] := by cbv
  exact ⟨hsplit, by simpa using strings_delimited hsplit rfl⟩

end Lexeme

end QuantumScript
