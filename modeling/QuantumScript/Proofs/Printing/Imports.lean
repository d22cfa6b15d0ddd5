import QuantumScript.Proofs.Printing.Simple
/-!
# Names and imports

Lists of names, paths with dots, and what is imported from them.
-/

namespace QuantumScript

namespace Syntax

open Production

variable {rest : List Token} {prints : List Print} {script : Production} {ends : List TokenKind}

/-- Items with commas between them that go on as long as there is a comma. -/
theorem takes_commas (hnonempty : prints ≠ [])
    (h : ∀ print ∈ prints, ∀ rest, ends.contains (Token.nextKind rest) = true →
      ∃ answer, Takes script answer print rest)
    (hends : ends.contains (.symbol .comma) = true)
    (hrest : ends.contains (Token.nextKind rest) = true)
    (hcomma : Token.nextKind rest ≠ .symbol .comma) :
    Takes (.loop (.seq script (eat (.symbol .comma)))) true (Print.items prints) rest := by
  refine takes_separated (fun hnil => absurd hnil hnonempty) ?_ ?_
  · intro print hmem
    obtain ⟨answer, hitem⟩ := h print hmem rest hrest
    exact Takes.seq_still hitem (takes_eat_none hcomma)
  · intro print hmem next _ more
    obtain ⟨answer, hitem⟩ := h print hmem (Token.mark .comma :: (next.words ++ more)) hends
    exact Takes.seq hitem (takes_eat rfl)

theorem takes_names (first : Name) (others : List Name)
    (hrest : Token.nextKind rest = .newline) :
    Takes (.loop (.seq name (eat (.symbol .comma)))) true
      (.items ((first :: others).map Print.name)) rest := by
  have hends : [TokenKind.symbol .comma, .newline].contains (Token.nextKind rest) = true := by
    rw [hrest]
    rfl
  refine takes_commas (List.cons_ne_nil _ _) ?_ rfl hends (by rw [hrest]; exact nofun)
  intro print hmem rest _
  obtain ⟨token, _, rfl⟩ := List.mem_map.mp hmem
  exact ⟨true, takes_nameOr token.kind_name []⟩

/-- The name after `as` is read if it is there. -/
theorem takes_asName (newName : Option Name) (hrest : Token.nextKind rest ≠ .keyword .asWord) :
    ∃ answer, Takes asName answer (asPrint newName) rest := by
  cases newName with
  | none => exact ⟨false, Turns.eat_no hrest (Takes.answered false)⟩
  | some token => exact ⟨true, Takes.eat_yes rfl (takes_nameOr token.kind_name [])⟩

private theorem nextKind_asPrint (newName : Option Name) (rest : List Token) :
    Token.nextKind ((asPrint newName).words ++ rest) = Token.nextKind rest ∨
      Token.nextKind ((asPrint newName).words ++ rest) = .keyword .asWord := by
  cases newName with
  | none => exact Or.inl rfl
  | some token => exact Or.inr rfl

/-- Dots before a path. The induction is on their number. -/
theorem takes_dots (dots : Nat) (hrest : Token.nextKind rest ≠ .symbol .dot) :
    Takes (.loop (eat (.symbol .dot))) true (.concat (List.replicate dots (.mark .dot))) rest := by
  induction dots with
  | zero => exact Turns.loop_no (takes_eat_none hrest)
  | succ dots ih =>
    have hdot : Takes (eat (.symbol .dot)) true (.mark .dot)
        ((Print.concat (List.replicate dots (.mark .dot))).words ++ rest) := takes_eat rfl
    exact Takes.loop_yes hdot (List.cons_ne_nil _ _) ih

def component : Production :=
  .cond (.ask (.atPair [.symbol .dot] .name))
    (steps [.bump (.symbol .dot), name, .answer true]) (.answer false)

theorem takes_components (names : List Name) (hrest : Token.nextKind rest ≠ .symbol .dot) :
    Takes (.loop component) true (.concat (names.map fun name => .mark .dot ++ .name name)) rest := by
  induction names with
  | nil =>
    refine Turns.loop_no (Turns.pair_no ?_ (Takes.answered false))
    intro hdot
    have hnext : [TokenKind.symbol .dot].contains (Token.nextKind rest) = true := hdot
    exact absurd (by simpa using hnext) hrest
  | cons token names ih =>
    have hname : Takes (.seq name (.answer true)) true (.name token)
        ((Print.concat (names.map fun name => .mark .dot ++ .name name)).words ++ rest) :=
      Takes.seq_answer (takes_nameOr token.kind_name [])
    have hround : Takes component true (.mark .dot ++ .name token)
        ((Print.concat (names.map fun name => .mark .dot ++ .name name)).words ++ rest) :=
      Turns.pair_yes rfl token.kind_name (Takes.seq (takes_mark .dot _) hname)
    exact Takes.loop_yes hround (List.cons_ne_nil _ _) ih

private theorem takes_dottedName (dots : Nat) (path : Path)
    (hrest : Token.nextKind rest ≠ .symbol .dot) :
    Takes dottedName true
      ((.concat (List.replicate dots (.mark .dot)) ++ path.print).node .dottedName) rest := by
  have hname : Token.nextKind (path.print.words ++ rest) ≠ .symbol .dot := by
    have hkind : Token.nextKind (path.print.words ++ rest) = .name := path.first.kind_name
    rw [hkind]
    exact nofun
  have hpath : Takes (.seq name (.loop component)) true path.print rest :=
    Takes.seq (takes_nameOr path.first.kind_name []) (takes_components path.others hrest)
  exact Takes.node (Takes.seq (takes_dots dots hname) hpath)

/-- Tokens that come after something imported. -/
private def aliasEnds : List TokenKind := [.symbol .comma, .newline, .symbol .rightParen]

private theorem takes_moduleAlias (item : ModuleAlias)
    (hrest : aliasEnds.contains (Token.nextKind rest) = true) :
    Takes (.node (.always .importAlias) (.seq dottedName asName)) true item.print rest := by
  have has : Token.nextKind rest ≠ .keyword .asWord := by
    intro heq
    rw [heq] at hrest
    cases hrest
  have hdot : Token.nextKind ((asPrint item.newName).words ++ rest) ≠ .symbol .dot := by
    rcases nextKind_asPrint item.newName rest with heq | heq
    · rw [heq]
      intro heq
      rw [heq] at hrest
      cases hrest
    · rw [heq]
      exact nofun
  obtain ⟨answer, halias⟩ := takes_asName item.newName has
  exact Takes.node (Takes.seq (takes_dottedName 0 item.path hdot) halias)

private theorem takes_nameAlias (item : NameAlias)
    (hrest : aliasEnds.contains (Token.nextKind rest) = true) :
    Takes (.node (.always .importAlias) (.seq name asName)) true item.print rest := by
  have has : Token.nextKind rest ≠ .keyword .asWord := by
    intro heq
    rw [heq] at hrest
    cases hrest
  obtain ⟨answer, halias⟩ := takes_asName item.newName has
  exact Takes.node (Takes.seq (takes_nameOr item.name.kind_name []) halias)

theorem takes_modules (first : ModuleAlias) (others : List ModuleAlias)
    (hrest : Token.nextKind rest = .newline) :
    Takes importStatement true
      (.word .importWord ++ .items ((first :: others).map ModuleAlias.print)) rest := by
  have hends : aliasEnds.contains (Token.nextKind rest) = true := by
    rw [hrest]
    rfl
  refine Takes.seq (takes_word .importWord _)
    (takes_commas (List.cons_ne_nil _ _) ?_ rfl hends (by rw [hrest]; exact nofun))
  intro print hmem rest hends
  obtain ⟨item, _, rfl⟩ := List.mem_map.mp hmem
  exact ⟨true, takes_moduleAlias item hends⟩

/-- One round over imported names between parentheses. -/
private def importedRound : Production :=
  .seq (.node (.always .importAlias) (.seq name asName)) <|
    .cond (eat (.symbol .comma))
      (.cond (next (.symbol .rightParen)) (.answer false) (.answer true)) (.answer false)

/-- A comma after the last of the names, if there is one. -/
def Print.trailing (comma : Bool) : Print := if comma then .mark .comma else .empty

private theorem takes_lastName {print : Print} (comma : Bool)
    (hitem : ∀ rest, aliasEnds.contains (Token.nextKind rest) = true →
      Takes (.node (.always .importAlias) (.seq name asName)) true print rest)
    (hrest : Token.nextKind rest = .symbol .rightParen) :
    Takes importedRound false (print ++ .trailing comma) rest := by
  have hends : aliasEnds.contains (Token.nextKind rest) = true := by
    rw [hrest]
    rfl
  cases comma with
  | false =>
    change Takes importedRound false (print ++ .empty) rest
    rw [Print.append_empty]
    exact Takes.seq_still (hitem rest hends) (Turns.eat_no (by simp [hrest]) (Takes.answered false))
  | true =>
    have hparen : Takes (.cond (next (.symbol .rightParen)) (.answer false) (.answer true)) false .empty
        rest := Turns.at_yes (by rw [Print.words_empty, List.nil_append, hrest]; rfl) (Takes.answered false)
    exact Takes.seq (hitem _ rfl) (Takes.cond_still (takes_eat rfl) hparen)

private theorem takes_importedNames (first : NameAlias) (others : List NameAlias) (comma : Bool)
    (hrest : Token.nextKind rest = .symbol .rightParen) :
    Takes (.loop importedRound) true
      (.items ((first :: others).map NameAlias.print) ++ .trailing comma) rest := by
  refine takes_separated_tail nofun ?_ ?_
  · intro print hmem
    obtain ⟨item, _, rfl⟩ := List.mem_map.mp hmem
    exact takes_lastName comma (fun _ => takes_nameAlias item) hrest
  · intro print hmem next hnext more
    obtain ⟨item, _, rfl⟩ := List.mem_map.mp hmem
    obtain ⟨other, _, rfl⟩ := List.mem_map.mp hnext
    have hends : aliasEnds.contains
        (Token.nextKind (Token.mark .comma :: (other.print.words ++ more))) = true := rfl
    have hitem := takes_nameAlias item hends
    have hname : Token.nextKind (other.print.words ++ more) = .name := other.name.kind_name
    have hgoes : Takes (.cond (next (.symbol .rightParen)) (.answer false) (.answer true)) true .empty
        (other.print.words ++ more) :=
      Turns.at_no (by rw [Print.words_empty, List.nil_append, hname]; rfl) (Takes.answered true)
    exact Takes.seq hitem (Takes.cond_still (takes_eat rfl) hgoes)

def importedNames : Production :=
  .cond (eat (.symbol .star)) (.answer true) <|
    .cond (eat (.symbol .leftParen))
      (.seq (.loop importedRound) (expect (.symbol .rightParen)))
      (.loop (.seq (.node (.always .importAlias) (.seq name asName)) (eat (.symbol .comma))))

/-- Names in parentheses, perhaps with a comma after the last one. -/
theorem takes_enclosed (first : NameAlias) (others : List NameAlias) (comma : Bool) (rest : List Token) :
    Takes importedNames true (.between .round
      (.items ((first :: others).map NameAlias.print) ++ .trailing comma)) rest := by
  have hparen : Token.nextKind (Token.mark .rightParen :: rest) = .symbol .rightParen := rfl
  have hnames := takes_importedNames first others comma hparen
  exact Turns.eat_no nofun (Takes.eat_yes rfl (Takes.seq hnames (takes_expect_mark _ _)))

theorem takes_imported (names : Imported) (hrest : Token.nextKind rest = .newline) :
    Takes importedNames true names.print rest := by
  cases names with
  | all =>
    have hstar : Takes importedNames true (.mark .star ++ .empty) rest :=
      Takes.eat_yes rfl (Takes.answered true)
    exact hstar
  | names parenthesized first others =>
    cases parenthesized with
    | true =>
      have hnames := takes_enclosed first others false rest
      rwa [Print.trailing, if_neg Bool.false_ne_true, Print.append_empty] at hnames
    | false =>
      have hname : Token.nextKind ((Imported.names false first others).print.words ++ rest) = .name :=
        first.name.kind_name
      have hends : aliasEnds.contains (Token.nextKind rest) = true := by
        rw [hrest]
        rfl
      have hlist : Takes (.loop (.seq (.node (.always .importAlias) (.seq name asName))
          (eat (.symbol .comma)))) true (.items ((first :: others).map NameAlias.print)) rest := by
        refine takes_commas (List.cons_ne_nil _ _) ?_ rfl hends (by rw [hrest]; exact nofun)
        intro print hmem rest hends
        obtain ⟨item, _, rfl⟩ := List.mem_map.mp hmem
        exact ⟨true, takes_nameAlias item hends⟩
      have hstar : Token.nextKind ((Imported.names false first others).print.words ++ rest) ≠
          .symbol .star := by
        rw [hname]
        exact nofun
      have hparen : Token.nextKind ((Imported.names false first others).print.words ++ rest) ≠
          .symbol .leftParen := by
        rw [hname]
        exact nofun
      exact Turns.eat_no hstar (Turns.eat_no hparen hlist)

theorem takes_fromImport (dots : Nat) (path : Path) {names : Print}
    (h : Takes importedNames true names rest) :
    Takes fromImportStatement true
      (.word .fromWord ++ ((.concat (List.replicate dots (.mark .dot)) ++ path.print).node
        .dottedName ++ (.word .importWord ++ names))) rest := by
  have hword : Token.nextKind (Token.word .importWord :: (names.words ++ rest)) ≠ .symbol .dot := nofun
  have hpath := takes_dottedName dots path hword
  have himport : Takes (.cond (expect (.keyword .importWord)) importedNames (.answer false)) true
      (.word .importWord ++ names) rest :=
    Takes.cond_yes (takes_expect_word .importWord _) h
  exact Takes.seq (takes_word .fromWord _) (Takes.seq hpath himport)

end Syntax

end QuantumScript
