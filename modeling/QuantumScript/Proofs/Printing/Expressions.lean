import QuantumScript.Proofs.Printing.Chains
/-!
# Printed expressions

Every abstract expression is read back from its print. The statement for expressions is proved together
with the statements for all that stands inside them, by one induction with a case for each form.
-/

namespace QuantumScript

namespace Syntax

/-- How the print of a phrase is read, by the sort of the phrase. -/
def Proper : Part → Rule → Print → Prop
  | .expression, rule, print => Printed rule print
  | .item place, _, print => Fits place.rule print
  | .row place, _, print => Row place print
  | .targets, _, print => Row .target print
  | .parameter, _, print =>
    Listed lambdaParameter Production.parameterFirst [.symbol .comma, .symbol .colon] print
  | .argument, _, print =>
    Listed callArgument Production.argumentFirst [.symbol .comma, .symbol .rightParen] print
  | .bound, _, print => IsBound print
  | .index, _, print =>
    Listed subscriptItem Production.subscriptFirst [.symbol .comma, .symbol .rightBracket] print
  | .entry, _, print => Head .curly print
  | .comprehension, _, print => Comprehension print
  | .clauses, _, print => Clauses print
  | .items part, _, print =>
    ∃ prints, print = Print.items prints ∧ ∀ item ∈ prints, ∃ rule, Proper part rule item
  | .others part, _, print =>
    ∃ prints, print = Print.others prints ∧ ∀ item ∈ prints, ∃ rule, Proper part rule item

namespace Row

variable {print : Print}

theorem fits (h : Row .element print) : Fits .expressionList print :=
  ⟨h.tree, h.opens.mono (by decide), fun rest hrest => Turns.call (h.takes rest (.of_stops hrest)),
    h.sound⟩

end Row

variable {part : Part}

private theorem proper_items {rule : Rule} {first others : Print} (hfirst : Proper part rule first)
    (hothers : Proper (.others part) .atom others) :
    ∃ prints, first ++ others = Print.items prints ∧
      ∀ item ∈ prints, ∃ rule, Proper part rule item := by
  obtain ⟨prints, rfl, hprints⟩ := hothers
  refine ⟨first :: prints, rfl, ?_⟩
  intro item hmem
  rcases List.mem_cons.mp hmem with rfl | hmem
  · exact ⟨rule, hfirst⟩
  · exact hprints item hmem

private theorem proper_others {rule : Rule} {first others : Print} (hfirst : Proper part rule first)
    (hothers : Proper (.others part) .atom others) :
    ∃ prints, (prints ≠ [] ∧ Print.mark .comma ++ (first ++ others) = Print.others prints) ∧
      ∀ item ∈ prints, ∃ rule, Proper part rule item := by
  obtain ⟨prints, rfl, hprints⟩ := hothers
  refine ⟨first :: prints, ⟨List.cons_ne_nil _ _, rfl⟩, ?_⟩
  intro item hmem
  rcases List.mem_cons.mp hmem with rfl | hmem
  · exact ⟨rule, hfirst⟩
  · exact hprints item hmem

/-- The print of a phrase is read as the sort of the phrase demands. -/
theorem Phrase.proper (phrase : Phrase part) : Proper part phrase.rule phrase.print := by
  induction phrase with
  | name token => exact Printed.atom (fits_name token)
  | literal token => exact Printed.atom (fits_literal token)
  | strings first others => exact Printed.atom (fits_strings first others)
  | sign prefixed value ih =>
    have hsign : Fits .factor _ := fits_sign prefixed (ih.guard (by decide))
    exact hsign.printed (by decide) (by decide) nofun
  | negation value ih =>
    have hnegation : Fits .negation _ := fits_negation (ih.guard (by decide))
    exact hnegation.printed (by decide) (by decide) nofun
  | binary operator left right ihleft ihright => exact Printed.binary operator ihleft ihright
  | power base exponent ihbase ihexponent =>
    have hpower := fits_power (ihbase.guard (by decide)) (ihexponent.guard (by decide))
    exact hpower.printed (by decide) (by decide) nofun
  | conditional value condition other ihvalue ihcondition ihother =>
    have hconditional := fits_conditional (ihvalue.guard (by decide))
      (ihcondition.guard (by decide)) (ihother.guard (by decide))
    exact hconditional.printed (by decide) (by decide) nofun
  | lambda parameters body ihparameters ihbody =>
    obtain ⟨prints, hprint, hprints⟩ := ihparameters
    have hlambda := fits_lambda (fun item hmem => (hprints item hmem).choose_spec)
      (ihbody.guard (by decide))
    rw [← hprint] at hlambda
    exact hlambda.printed (by decide) (by decide) nofun
  | member value name ih => exact ih.chained (trailer_attribute name)
  | call function arguments ihfunction iharguments =>
    obtain ⟨prints, hprint, hprints⟩ := iharguments
    have htrailer := trailer_arguments fun item hmem => (hprints item hmem).choose_spec
    rw [← hprint] at htrailer
    exact ihfunction.chained htrailer
  | subscript value first others ihvalue ihfirst ihothers =>
    obtain ⟨prints, hprint, hprints⟩ := proper_items ihfirst ihothers
    have htrailer := trailer_subscripts fun item hmem => (hprints item hmem).choose_spec
    rw [← hprint] at htrailer
    exact ihvalue.chained htrailer
  | unit => exact Printed.atom fits_unit
  | tuple elements ih => exact ih.fits.printed (by decide) (by decide) nofun
  | list elements ih =>
    obtain ⟨prints, hprint, hprints⟩ := ih
    have hlist := Head.fits_items .square nofun fun item hmem =>
      Head.element (hprints item hmem).choose_spec .square
    rw [← hprint] at hlist
    exact Printed.atom hlist
  | set first others ihfirst ihothers =>
    obtain ⟨prints, hprint, hprints⟩ := proper_items ihfirst ihothers
    have hset := Head.fits_items .curly nofun fun item hmem =>
      Head.element (hprints item hmem).choose_spec .curly
    rw [← hprint] at hset
    exact Printed.atom hset
  | dictionary entries ih =>
    obtain ⟨prints, hprint, hprints⟩ := ih
    have hdictionary := Head.fits_items .curly nofun fun item hmem =>
      (hprints item hmem).choose_spec
    rw [← hprint] at hdictionary
    exact Printed.atom hdictionary
  | comprehended bracket element clauses ihelement ihclauses =>
    cases bracket with
    | round => exact Printed.atom (fits_generator ihelement ihclauses)
    | square =>
      exact Printed.atom (Head.fits_comprehension nofun (Head.element ihelement .square) ihclauses)
    | curly =>
      exact Printed.atom (Head.fits_comprehension nofun (Head.element ihelement .curly) ihclauses)
  | dictionaryComprehension entry clauses ihentry ihclauses =>
    exact Printed.atom (Head.fits_comprehension nofun ihentry ihclauses)
  | @item place value ih => cases place <;> exact ih.guard (by decide)
  | single element ih => exact Place.row_single ih
  | several first second others ihfirst ihsecond ihothers =>
    obtain ⟨prints, hprint, hprints⟩ := ihothers
    obtain ⟨all, hall, hitems⟩ := proper_others ihsecond ⟨prints, hprint, hprints⟩
    have hrow := Place.row_several ihfirst hall.1 fun item hmem => (hitems item hmem).choose_spec
    rw [← hall.2] at hrow
    exact hrow
  | target value ih => exact Place.row_one (ih.guard (by decide))
  | targets elements ih => exact ih
  | parameter stars name => exact listed_parameter stars name
  | defaulted name value ih => exact listed_defaulted name (ih.guard (by decide))
  | argument stars value ih => exact listed_value stars (ih.guard (by decide))
  | keyword name value ih => exact listed_keyword name (ih.guard (by decide))
  | generated element clauses ihelement ihclauses => exact listed_generated ihelement ihclauses
  | unbounded => exact Or.inl rfl
  | bound value ih => exact Or.inr (ih.guard (by decide))
  | index value ih => exact listed_index (ih.guard (by decide))
  | slice lower upper ihlower ihupper => exact listed_slice ihlower ihupper
  | stride lower upper step ihlower ihupper ihstep => exact listed_stride ihlower ihupper ihstep
  | entry key value ihkey ihvalue =>
    exact Head.entry (ihkey.guard (by decide)) (ihvalue.guard (by decide))
  | comprehension targets iterable clauses ihtargets ihiterable ihclauses =>
    exact comprehension_of ihtargets (ihiterable.guard (by decide)) ihclauses
  | noClauses => exact clauses_empty
  | each targets iterable clauses ihtargets ihiterable ihclauses =>
    exact clauses_each ihtargets (ihiterable.guard (by decide)) ihclauses
  | filter condition clauses ihcondition ihclauses =>
    exact clauses_filter (ihcondition.guard (by decide)) ihclauses
  | noItems => exact ⟨[], rfl, nofun⟩
  | items first others ihfirst ihothers => exact proper_items ihfirst ihothers
  | noOthers => exact ⟨[], rfl, nofun⟩
  | others first others ihfirst ihothers =>
    obtain ⟨prints, hall, hprints⟩ := proper_others ihfirst ihothers
    exact ⟨prints, hall.2, hprints⟩

end Syntax

end QuantumScript
