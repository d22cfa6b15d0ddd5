import QuantumScript.Proofs.Printing.Arguments
/-!
# Chains

The calls, subscripts and attributes after an atom become parts of one chain, however many they are.
-/

namespace QuantumScript

namespace Syntax

open Production

variable {rule : Rule} {rest : List Token} {print value next : Print} {prints : List Print}

/-- A call, a subscript or an attribute. -/
structure Trailer (print : Print) : Prop where
  starts : ∀ more, trailerFirst.contains (Token.nextKind (print.words ++ more)) = true
  takes : ∀ rest, ∃ answer, Takes trailer answer print rest
  sound : Sound print.words

theorem trailer_attribute (name : Name) :
    Trailer ((Print.mark .dot ++ Print.name name).node .attribute) := by
  refine ⟨fun _ => rfl, fun rest => ⟨true, ?_⟩, Sound.mark rfl rfl (fits_name name).sound⟩
  have hname : Takes (.seq (.bump (.symbol .dot)) (nameOr trailerFirst)) true
      (.mark .dot ++ .name name) rest :=
    Takes.seq (takes_mark .dot _) (takes_nameOr name.kind_name trailerFirst)
  exact Turns.at_no rfl (Turns.at_no rfl (Turns.call (Takes.node hname)))

theorem takes_arguments (h : ∀ print ∈ prints,
      Listed callArgument argumentFirst [.symbol .comma, .symbol .rightParen] print)
    (rest : List Token) :
    Takes (.call .arguments) true ((Print.between .round (Print.items prints)).node .arguments)
      rest := by
  have hstart : ∀ kind ∈ [.symbol Bracket.round.closing, .endOfInput], kind ∉ argumentFirst := by
    decide
  have hclosing : argumentFirst.contains (.symbol Bracket.round.closing) = false := rfl
  exact Turns.call (Takes.node (takes_bracketed hstart hclosing h rest))

theorem trailer_arguments (h : ∀ print ∈ prints,
      Listed callArgument argumentFirst [.symbol .comma, .symbol .rightParen] print) :
    Trailer ((Print.between .round (Print.items prints)).node .arguments) := by
  have hsound := Print.sound_items fun print hmem => (h print hmem).sound
  refine ⟨fun _ => rfl, fun rest => ⟨true, ?_⟩, Sound.between hsound⟩
  exact Turns.at_yes rfl (takes_arguments h rest)

theorem trailer_subscripts (h : ∀ print ∈ prints,
      Listed subscriptItem subscriptFirst [.symbol .comma, .symbol .rightBracket] print) :
    Trailer ((Print.between .square (Print.items prints)).node .subscripts) := by
  have hsound := Print.sound_items fun print hmem => (h print hmem).sound
  refine ⟨fun _ => rfl, fun rest => ⟨true, ?_⟩, Sound.between hsound⟩
  have hstart : ∀ kind ∈ [.symbol Bracket.square.closing, .endOfInput], kind ∉ subscriptFirst := by
    decide
  have hclosing : subscriptFirst.contains (.symbol Bracket.square.closing) = false := rfl
  have hitems := takes_bracketed hstart hclosing h rest
  exact Turns.at_no rfl (Turns.at_yes rfl (Turns.call (Takes.node hitems)))

private theorem trails_of_atom (h : Fits .atom print) : Trails print := by
  intro words trees rest hnext hloop
  obtain ⟨tree, htree, _⟩ := h.tree
  have hstop : Stops .atom (words ++ rest) := by
    have hbinding : ∀ kind ∈ trailerFirst, Rule.atom.rank < kind.binding := by decide
    exact hbinding _ (by simpa using hnext)
  rw [htree] at hloop
  refine Turns.call (Turns.cond_yes (h.takes _ hstop) (Turns.at_yes hnext ?_))
  rw [htree]
  exact Turns.wrap hloop

private theorem round_trailer (h : Trailer next) (old : List Tree) (more : List Token) :
    Turns (whenAt trailerFirst (.seq trailer (.answer true))) true old next.words
      (old ++ next.trees) more := by
  obtain ⟨answer, htakes⟩ := h.takes more
  have hframe := Turns.frame htakes old
  rw [List.append_nil] at hframe
  exact Turns.at_yes (h.starts more) (Turns.seq_answer hframe)

private theorem Trailer.nonempty (h : Trailer next) : next.words ≠ [] := by
  intro hnil
  have hstarts := h.starts []
  rw [hnil] at hstarts
  cases hstarts

theorem trails_append (h : Trails print) (hnext : Trailer next) : Trails (print ++ next) := by
  intro words trees rest _ hloop
  have hall := Turns.loop_yes (round_trailer hnext print.trees _) hnext.nonempty hloop
  have hstarts := hnext.starts (words ++ rest)
  rw [← List.append_assoc] at hstarts
  have htakes := h _ trees rest hstarts hall
  rw [← List.append_assoc] at htakes
  exact htakes

private theorem fits_chain (hopens : Opens .chain print.words) (hsound : Sound print.words)
    (h : Trails print) (hnext : Trailer next) : Fits .chain ((print ++ next).node .chain) := by
  have hdot : Token.nextKind next.words ≠ .symbol .equals := by
    intro heq
    have hstarts := hnext.starts []
    rw [List.append_nil, heq] at hstarts
    cases hstarts
  refine ⟨⟨_, rfl, nofun⟩, hopens.append hdot, ?_, hsound.append hnext.sound⟩
  intro rest hrest
  have hnone : Takes (whenAt trailerFirst (.seq trailer (.answer true))) false .empty rest :=
    takes_whenAt_none (hrest.not_at (by decide))
  have hend := Turns.frame (Turns.loop_no hnone) (print.trees ++ next.trees)
  rw [List.append_nil] at hend
  have hall := Turns.loop_yes (round_trailer hnext print.trees _) hnext.nonempty hend
  rw [Print.words_empty, List.append_nil, Print.empty, List.append_nil] at hall
  exact h next.words _ rest (hnext.starts rest) hall

/-- Whatever is called or has a part taken, it becomes the front of a chain. -/
theorem Printed.chained (h : Printed rule value) (hnext : Trailer next) :
    Printed .chain (value.chained rule next) := by
  have hfront : ∃ front : Print, value.chained rule next = (front ++ next).node .chain ∧
      Opens .chain front.words ∧ Sound front.words ∧ Trails front := by
    by_cases hchain : rule = .chain
    · refine ⟨value.inside, ?_, ?_, ?_, h.trails hchain⟩
      · rw [Print.chained, if_pos hchain]
      · rw [Print.words_inside, ← hchain]
        exact h.opens
      · rw [Print.words_inside]
        exact h.sound
    · have hatom := h.guard (by decide : Rule.atom ∈ Rule.levels)
      refine ⟨value.guard .atom rule, ?_, hatom.opens.mono (by decide), hatom.sound, trails_of_atom hatom⟩
      rw [Print.chained, if_neg hchain]
  obtain ⟨front, heq, hopens, hsound, htrails⟩ := hfront
  rw [heq]
  exact ⟨fits_chain hopens hsound htrails hnext, by decide, fun hmem => absurd hmem (by decide),
    fun _ => trails_append htrails hnext⟩

end Syntax

end QuantumScript
