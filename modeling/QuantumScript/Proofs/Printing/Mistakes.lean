import QuantumScript.Proofs.Parsing.Conforming
import QuantumScript.Proofs.Printing.Compounds
/-!
# Mistakes

How a script reads words that it finds a mistake in. The rules are those for words without one, but the problems
that are booked on the way are kept.
-/

namespace QuantumScript

namespace Syntax

open Production

/-- Where the rest follows, the script reads the print and books the problems, the last one first. -/
def Books (script : Production) (answer : Bool) (print : Print) (problems : List Problem)
    (rest : List Token) : Prop :=
  ∀ parts booked, script.read grammar ⟨print.words ++ rest, parts, booked⟩ =
    some (answer, ⟨rest, print.trees.reverse ++ parts, problems ++ booked⟩)

variable {first second test yes no body : Production} {answer reply : Bool} {token : Token}
  {kinds : List TokenKind} {rest : List Token} {print next : Print} {problems more : List Problem}

theorem Takes.books (h : Takes body answer print rest) : Books body answer print [] rest := h

namespace Books

open Script

theorem report (problem : Problem) : Books (.report problem) false .empty [problem] rest := by
  intro parts booked
  rw [read_report]
  rfl

theorem seq (hfirst : Books first answer print problems (next.words ++ rest))
    (hsecond : Books second reply next more rest) :
    Books (.seq first second) reply (print ++ next) (more ++ problems) rest := by
  intro parts booked
  rw [Print.words_append, List.append_assoc, read_seq, hfirst parts booked, Option.bind_some,
    hsecond, Print.trees_append, List.reverse_append, List.append_assoc, List.append_assoc]

theorem seq_answer (h : Books first answer print problems rest) :
    Books (.seq first (.answer reply)) reply print problems rest := by
  have hseq := h.seq (Takes.answered reply).books
  rwa [Print.append_empty, List.nil_append] at hseq

theorem cond_no (htest : Books test false print problems (next.words ++ rest))
    (hno : Books no answer next more rest) :
    Books (.cond test yes no) answer (print ++ next) (more ++ problems) rest := by
  intro parts booked
  rw [Print.words_append, List.append_assoc, read_cond, htest parts booked, Option.bind_some,
    if_neg Bool.false_ne_true, hno, Print.trees_append, List.reverse_append, List.append_assoc,
    List.append_assoc]

theorem at_yes (h : kinds.contains (Token.nextKind (print.words ++ rest)) = true)
    (hyes : Books yes answer print problems rest) :
    Books (.cond (.ask (.at kinds)) yes no) answer print problems rest := by
  intro parts booked
  rw [read_cond, read_ask, Option.bind_some, Sketch.holds, Sketch.current_mk, if_pos h]
  exact hyes parts booked

theorem at_no (h : kinds.contains (Token.nextKind (print.words ++ rest)) = false)
    (hno : Books no answer print problems rest) :
    Books (.cond (.ask (.at kinds)) yes no) answer print problems rest := by
  intro parts booked
  rw [read_cond, read_ask, Option.bind_some, Sketch.holds, Sketch.current_mk, h]
  exact hno parts booked

theorem call {rule : Rule} (h : Books (grammar rule) answer print problems rest) :
    Books (.call rule) answer print problems rest := by
  intro parts booked
  rw [read_call]
  exact h parts booked

theorem node {kind : NodeKind} (h : Books body answer print problems rest) :
    Books (.node (.always kind) body) true (print.node kind) problems rest := by
  intro parts booked
  change (Script.node (.always kind) body).read grammar ⟨print.words ++ rest, parts, booked⟩ = _
  rw [read_node, h [] booked, Option.bind_some, List.append_nil, List.reverse_reverse]
  rfl

theorem loop_no (h : Books body false print problems rest) : Books (.loop body) true print problems rest := by
  intro parts booked
  rw [read_loop, h parts booked]
  rfl

theorem loop_yes (hbody : Books body true print problems (next.words ++ rest)) (hwords : print.words ≠ [])
    (hloop : Books (.loop body) answer next more rest) :
    Books (.loop body) answer (print ++ next) (more ++ problems) rest := by
  intro parts booked
  have hless : (next.words ++ rest).length < (print.words ++ (next.words ++ rest)).length := by
    have hpos := List.length_pos_iff.mpr hwords
    have hlength : (print.words ++ (next.words ++ rest)).length =
        print.words.length + (next.words ++ rest).length := List.length_append
    omega
  rw [Print.words_append, List.append_assoc, read_loop, hbody parts booked, Option.bind_some, if_pos rfl,
    if_pos hless, hloop, Print.trees_append, List.reverse_append, List.append_assoc, List.append_assoc]

/-- A statement with a mistake is an error up to its end, with all that has not been read of it. -/
theorem statement {kind : NodeKind} {left : List Token} (hgoes : ∀ token ∈ left, Sketch.goesOn token = true)
    (hend : Parse.statementEnds.contains (Token.nextKind rest) = true) (hproblems : problems ≠ [])
    (h : Books body answer print problems (left ++ rest)) :
    Books (Script.statement kind body) true ((print ++ ⟨left, left.map Token.leaf⟩).node .error) problems rest := by
  intro parts booked
  have hskip : (Sketch.mk (left ++ rest) print.trees.reverse (problems ++ booked)).finishStatement
      booked.length = ⟨rest, (left.map Token.leaf).reverse ++ print.trees.reverse, problems ++ booked⟩ := by
    have hlength : (problems ++ booked).length ≠ booked.length := by
      have hpos := List.length_pos_iff.mpr hproblems
      rw [List.length_append]
      omega
    rw [Sketch.finishStatement, Sketch.current_mk]
    cases left with
    | nil =>
      rw [List.nil_append, if_pos hend]
      rfl
    | cons token left =>
      have htoken : Parse.statementEnds.contains token.kind = false := by
        have := hgoes token List.mem_cons_self
        simpa [Sketch.goesOn] using this
      have hrest : rest.takeWhile Sketch.goesOn = [] ∧ rest.dropWhile Sketch.goesOn = rest := by
        cases rest with
        | nil => exact ⟨rfl, rfl⟩
        | cons stop rest =>
          have hkind : Parse.statementEnds.contains stop.kind = true := hend
          have hstop : ¬Sketch.goesOn stop = true := by
            rw [Sketch.goesOn, hkind]
            exact Bool.false_ne_true
          exact ⟨List.takeWhile_cons_of_neg hstop, List.dropWhile_cons_of_neg hstop⟩
      rw [List.cons_append, Token.nextKind, htoken, if_neg Bool.false_ne_true, if_neg hlength, Sketch.skip,
        ← List.cons_append, List.takeWhile_append_of_pos hgoes, List.dropWhile_append_of_pos hgoes, hrest.1,
        hrest.2, List.append_nil]
  have hlabel : booked.length < (problems ++ booked).length := by
    have hpos := List.length_pos_iff.mpr hproblems
    rw [List.length_append]
    omega
  change (Script.statement kind body).read grammar
    ⟨(print.words ++ left) ++ rest, parts, booked⟩ = _
  rw [List.append_assoc, read_statement, h [] booked, Option.bind_some, List.append_nil]
  simp only [hskip, if_pos hlabel, List.reverse_append, List.reverse_reverse]
  rfl

end Books

namespace Production

/-- Where a name is missing, the next token is taken for the mistake. -/
theorem books_name (hname : token.kind ≠ .name)
    (hend : [TokenKind.newline, .endOfInput].contains token.kind = false) :
    Books name true ((Print.leaf token).node .error) [.missingName] rest := by
  have hnone : [TokenKind.name].contains token.kind = false := by simpa using hname
  have hkind : token.kind ≠ .endOfInput := by
    intro heq
    rw [heq] at hend
    cases hend
  exact Books.at_no hnone (Books.at_no hend
    (Books.node (Books.seq (Books.report _) (Takes.advance hkind).books)))

theorem books_expect {kind : TokenKind} (h : Token.nextKind rest ≠ kind) :
    Books (expect kind) false .empty [.missing kind] rest :=
  Books.at_no (by simpa [Print.empty] using h) (Books.report _)

/-- A simple statement with a mistake, on a line of its own. -/
theorem books_file {ending : List Char}
    (h : Books (.call .simpleStatement) true print problems [.lineBreak ending])
    (hstarts : simpleFirst.contains (Token.nextKind print.words) = true) (hnonempty : print.words ≠ []) :
    file.read grammar ⟨print.words ++ [.lineBreak ending], [], []⟩ =
      some (true, ⟨[], [.token .newline ending] ++ print.trees.reverse, problems⟩) := by
  have hnone {kinds : List TokenKind} (hkinds : ∀ kind ∈ kinds, kind ∉ simpleFirst) :
      kinds.contains (Token.nextKind ((print ++ Print.leaf (.lineBreak ending)).words ++ [])) = false := by
    rw [List.append_nil, Print.words_append, Token.nextKind_append hnonempty, List.contains_eq_mem,
      decide_eq_false_iff_not]
    intro hmem
    exact hkinds _ hmem (by simpa using hstarts)
  have hsemicolon : Takes (.cond (eat (.symbol .semicolon))
      (.cond (.ask (.at [.newline, .endOfInput])) (.answer false) (.answer true)) (.answer false))
      false .empty [.lineBreak ending] := Turns.eat_no nofun (Takes.answered false)
  have hend : Takes (.cond (Production.next .endOfInput) (.answer true) (expect .newline)) true
      (.leaf (.lineBreak ending)) [] := Turns.at_no rfl (takes_expect rfl)
  have hline : Books (.call .simpleLine) true (print ++ .leaf (.lineBreak ending)) problems [] := by
    have hloop := Books.loop_no (Books.seq h hsemicolon.books)
    rw [Print.append_empty] at hloop
    exact Books.call (Books.seq hloop hend.books)
  have hstatement : Books (.call .statement) true (print ++ .leaf (.lineBreak ending)) problems [] := by
    apply Books.call
    iterate 9 refine Books.at_no (hnone (by decide)) ?_
    exact hline
  have hround : Books (.cond (Production.next .endOfInput) (.answer false) <|
      .cond (.ask (.at [.dedent, .newline])) .advance (.seq (.call .statement) (.answer true)))
      true (print ++ .leaf (.lineBreak ending)) problems [] :=
    Books.at_no (hnone (by decide)) (Books.at_no (hnone (by decide)) hstatement.seq_answer)
  have hlast : Takes (.cond (Production.next .endOfInput) (.answer false) <|
      .cond (.ask (.at [.dedent, .newline])) .advance (.seq (.call .statement) (.answer true)))
      false .empty [] := Turns.at_yes rfl (Takes.answered false)
  have hwords : (print ++ Print.leaf (.lineBreak ending)).words ≠ [] :=
    List.append_ne_nil_of_left_ne_nil hnonempty _
  have hfile := Books.loop_yes hround hwords (Books.loop_no hlast.books) [] []
  simp only [Print.append_empty, List.nil_append, List.append_nil] at hfile
  rw [Print.words_append, Print.trees_append, List.reverse_append] at hfile
  exact hfile

end Production

end Syntax

end QuantumScript
