import QuantumScript.Proofs.Parsing.Sketch
/-!
# Moves

What a script makes of given words when the rest follows. Each form of script has its rules, so that
a production is read by putting the readings of its steps together.
-/

namespace QuantumScript

namespace Syntax

/-- Kind of the first of the tokens. -/
def Token.nextKind : List Token → TokenKind
  | [] => .endOfInput
  | token :: _ => token.kind

/-- Kind of the second of the tokens. -/
def Token.secondKind : List Token → TokenKind
  | [] => .endOfInput
  | _ :: tokens => nextKind tokens

theorem Token.nextKind_append {words : List Token} (h : words ≠ []) (rest : List Token) :
    nextKind (words ++ rest) = nextKind words := by
  cases words with
  | nil => exact absurd rfl h
  | cons token words => rfl

/-- Words of a line and the trees that they are read as. -/
structure Print where
  words : List Token
  trees : List Tree

namespace Print

def empty : Print := ⟨[], []⟩

def leaf (token : Token) : Print := ⟨[token], [token.leaf]⟩

def node (kind : NodeKind) (print : Print) : Print := ⟨print.words, [.node kind print.trees]⟩

instance : Append Print := ⟨fun first second =>
  ⟨first.words ++ second.words, first.trees ++ second.trees⟩⟩

@[simp] theorem words_empty : empty.words = [] := rfl

@[simp] theorem words_append (first second : Print) :
    (first ++ second).words = first.words ++ second.words := rfl

@[simp] theorem trees_append (first second : Print) :
    (first ++ second).trees = first.trees ++ second.trees := rfl

theorem append_empty (print : Print) : print ++ empty = print := by
  obtain ⟨words, trees⟩ := print
  change Print.mk (words ++ []) (trees ++ []) = _
  rw [List.append_nil, List.append_nil]

theorem append_assoc (first second third : Print) :
    first ++ second ++ third = first ++ (second ++ third) := by
  change Print.mk _ _ = Print.mk _ _
  rw [words_append, trees_append, List.append_assoc, List.append_assoc]
  rfl

end Print

namespace Sketch

variable (rest : List Token) (parts : List Tree) (problems : List Problem)

theorem current_mk : (Sketch.mk rest parts problems).current = Token.nextKind rest := by
  cases rest <;> rfl

private theorem second_mk : (Sketch.mk rest parts problems).second = Token.secondKind rest := by
  cases rest with
  | nil => rfl
  | cons token rest => cases rest <;> rfl

end Sketch

/-- Where the rest follows, the script takes the words and makes the old trees into the new ones,
whatever stands before them. -/
def Turns (script : Production) (answer : Bool) (old : List Tree) (words : List Token)
    (new : List Tree) (rest : List Token) : Prop :=
  ∀ parts problems, script.read grammar ⟨words ++ rest, old.reverse ++ parts, problems⟩ =
    some (answer, ⟨rest, new.reverse ++ parts, problems⟩)

/-- Where the rest follows, the script reads the print. -/
def Takes (script : Production) (answer : Bool) (print : Print) (rest : List Token) : Prop :=
  Turns script answer [] print.words print.trees rest

variable {first second test yes no body : Production} {answer reply : Bool} {token : Token}
  {kind : TokenKind} {kinds : List TokenKind} {words more rest : List Token}
  {old mid new : List Tree} {print next : Print}

namespace Turns

open Script

/-- Trees further back stay as they are. -/
theorem frame (h : Turns first answer old words new rest) (below : List Tree) :
    Turns first answer (below ++ old) words (below ++ new) rest := by
  intro parts problems
  rw [List.reverse_append, List.reverse_append, List.append_assoc, List.append_assoc]
  exact h _ problems

theorem seq (hfirst : Turns first answer old words mid (more ++ rest))
    (hsecond : Turns second reply mid more new rest) :
    Turns (.seq first second) reply old (words ++ more) new rest := by
  intro parts problems
  rw [List.append_assoc, read_seq, hfirst parts problems]
  exact hsecond parts problems

theorem seq_answer (h : Turns first answer old words new rest) :
    Turns (.seq first (.answer reply)) reply old words new rest := by
  intro parts problems
  rw [read_seq, h parts problems]
  exact read_answer grammar _ reply

theorem cond_yes (htest : Turns test true old words mid (more ++ rest))
    (hyes : Turns yes answer mid more new rest) :
    Turns (.cond test yes no) answer old (words ++ more) new rest := by
  intro parts problems
  rw [List.append_assoc, read_cond, htest parts problems]
  exact hyes parts problems

theorem at_yes (h : kinds.contains (Token.nextKind (words ++ rest)) = true)
    (hyes : Turns yes answer old words new rest) :
    Turns (.cond (.ask (.at kinds)) yes no) answer old words new rest := by
  intro parts problems
  rw [read_cond, read_ask, Option.bind_some, Sketch.holds, Sketch.current_mk, if_pos h]
  exact hyes parts problems

theorem at_no (h : kinds.contains (Token.nextKind (words ++ rest)) = false)
    (hno : Turns no answer old words new rest) :
    Turns (.cond (.ask (.at kinds)) yes no) answer old words new rest := by
  intro parts problems
  rw [read_cond, read_ask, Option.bind_some, Sketch.holds, Sketch.current_mk, h]
  exact hno parts problems

theorem pair_yes (hfirst : kinds.contains (Token.nextKind (words ++ rest)) = true)
    (hsecond : Token.secondKind (words ++ rest) = kind)
    (hyes : Turns yes answer old words new rest) :
    Turns (.cond (.ask (.atPair kinds kind)) yes no) answer old words new rest := by
  intro parts problems
  rw [read_cond, read_ask, Option.bind_some, Sketch.holds, Sketch.current_mk, Sketch.second_mk,
    hfirst, hsecond, decide_eq_true rfl]
  exact hyes parts problems

theorem pair_no (h : kinds.contains (Token.nextKind (words ++ rest)) = true →
      Token.secondKind (words ++ rest) ≠ kind)
    (hno : Turns no answer old words new rest) :
    Turns (.cond (.ask (.atPair kinds kind)) yes no) answer old words new rest := by
  intro parts problems
  rw [read_cond, read_ask, Option.bind_some, Sketch.holds, Sketch.current_mk, Sketch.second_mk]
  by_cases hfirst : kinds.contains (Token.nextKind (words ++ rest)) = true
  · rw [decide_eq_false (h hfirst), Bool.and_false]
    exact hno parts problems
  · rw [Bool.eq_false_iff.mpr hfirst]
    exact hno parts problems

theorem wrap {node : NodeKind} {part : Tree} (h : Turns body answer [part] words new rest) :
    Turns (.wrap node body) true [part] words [.node node new] rest := by
  intro parts problems
  have hbody := h [] problems
  rw [List.append_nil, List.append_nil] at hbody
  change read grammar (.wrap node body) ⟨words ++ rest, part :: parts, problems⟩ = _
  rw [read_wrap, show [part] = [part].reverse from rfl, hbody, Option.bind_some,
    List.reverse_reverse]
  rfl

theorem loop_no (h : Turns body false old words new rest) :
    Turns (.loop body) true old words new rest := by
  intro parts problems
  rw [read_loop, h parts problems]
  rfl

theorem loop_yes (hbody : Turns body true old words mid (more ++ rest)) (hwords : words ≠ [])
    (hloop : Turns (.loop body) answer mid more new rest) :
    Turns (.loop body) answer old (words ++ more) new rest := by
  intro parts problems
  have hless : (more ++ rest).length < (words ++ (more ++ rest)).length := by
    have hpos := List.length_pos_iff.mpr hwords
    have hlength : (words ++ (more ++ rest)).length = words.length + (more ++ rest).length :=
      List.length_append
    omega
  rw [List.append_assoc, read_loop, hbody parts problems, Option.bind_some, if_pos rfl,
    if_pos hless]
  exact hloop parts problems

theorem call {rule : Rule} (h : Turns (grammar rule) answer old words new rest) :
    Turns (.call rule) answer old words new rest := by
  intro parts problems
  rw [read_call]
  exact h parts problems

theorem demand (h : kinds.contains (Token.nextKind (words ++ rest)) = true)
    (hsecond : Turns second answer old words new rest) :
    Turns (.seq (.demand kinds) second) answer old words new rest := by
  intro parts problems
  rw [read_seq, read_demand, Sketch.current_mk, if_pos h]
  exact hsecond parts problems

theorem eat_yes (h : token.kind = kind)
    (hyes : Turns yes answer (old ++ [token.leaf]) words new rest) :
    Turns (.cond (Production.eat kind) yes no) answer old (token :: words) new rest := by
  intro parts problems
  have hcontains : [kind].contains token.kind = true := by simp [h]
  have htoken := hyes parts problems
  rw [List.reverse_append] at htoken
  rw [read_cond, Production.eat, Production.next, read_cond, read_ask, Option.bind_some,
    Sketch.holds, Sketch.current_mk, List.cons_append, Token.nextKind, if_pos hcontains, read_bump,
    Sketch.current_mk, Token.nextKind, if_pos h]
  exact htoken

theorem eat_no (h : Token.nextKind (words ++ rest) ≠ kind)
    (hno : Turns no answer old words new rest) :
    Turns (.cond (Production.eat kind) yes no) answer old words new rest := by
  intro parts problems
  have hcontains : [kind].contains (Token.nextKind (words ++ rest)) = false := by simpa using h
  rw [read_cond, Production.eat, Production.next, read_cond, read_ask, Option.bind_some,
    Sketch.holds, Sketch.current_mk, hcontains, if_neg Bool.false_ne_true, read_answer,
    Option.bind_some]
  exact hno parts problems

end Turns

namespace Takes

open Script

theorem answered (value : Bool) : Takes (.answer value) value .empty rest := by
  intro parts problems
  exact read_answer grammar _ value

theorem bump (h : token.kind = kind) : Takes (.bump kind) true (.leaf token) rest := by
  intro parts problems
  change read grammar (.bump kind) ⟨token :: rest, parts, problems⟩ = _
  rw [read_bump]
  exact if_pos h

theorem advance (h : token.kind ≠ .endOfInput) : Takes .advance true (.leaf token) rest := by
  intro parts problems
  change read grammar .advance ⟨token :: rest, parts, problems⟩ = _
  rw [read_advance]
  exact if_neg h

theorem seq (hfirst : Takes first answer print (next.words ++ rest))
    (hsecond : Takes second reply next rest) : Takes (.seq first second) reply (print ++ next) rest :=
  Turns.seq hfirst (by simpa using Turns.frame hsecond print.trees)

theorem cond_yes (htest : Takes test true print (next.words ++ rest))
    (hyes : Takes yes answer next rest) : Takes (.cond test yes no) answer (print ++ next) rest :=
  Turns.cond_yes htest (by simpa using Turns.frame hyes print.trees)

theorem seq_still (hfirst : Takes first answer print rest)
    (hsecond : Takes second reply .empty rest) : Takes (.seq first second) reply print rest := by
  rw [← print.append_empty]
  exact seq hfirst hsecond

theorem seq_answer (h : Takes first answer print rest) :
    Takes (.seq first (.answer reply)) reply print rest :=
  seq_still h (Takes.answered reply)

theorem cond_still (htest : Takes test true print rest) (hyes : Takes yes answer .empty rest) :
    Takes (.cond test yes no) answer print rest := by
  rw [← print.append_empty]
  exact cond_yes htest hyes

/-- A token is taken if it comes, and the script goes on after it. -/
theorem eat_yes (h : token.kind = kind) (hyes : Takes yes answer print rest) :
    Takes (.cond (Production.eat kind) yes no) answer (.leaf token ++ print) rest :=
  Turns.eat_yes h (by simpa [Print.leaf] using Turns.frame hyes [token.leaf])

theorem skip (hfirst : Takes first answer .empty (print.words ++ rest))
    (hsecond : Takes second reply print rest) : Takes (.seq first second) reply print rest :=
  Turns.seq hfirst hsecond

theorem labelled {label : Label} {node : NodeKind} (hlabel : label.resolve print.trees = node)
    (h : Takes body answer print rest) : Takes (.node label body) true (print.node node) rest := by
  intro parts problems
  have hbody := h [] problems
  rw [List.append_nil, List.append_nil] at hbody
  change read grammar (.node label body) ⟨print.words ++ rest, parts, problems⟩ = _
  rw [read_node]
  change (read grammar body ⟨print.words ++ rest, [].reverse, problems⟩).bind _ = _
  rw [hbody, Option.bind_some, List.reverse_reverse, hlabel]
  rfl

theorem node {node : NodeKind} (h : Takes body answer print rest) :
    Takes (.node (.always node) body) true (print.node node) rest := labelled rfl h

/-- The tree read last becomes part of a node with what comes after it. -/
theorem wrap {node : NodeKind} (htree : ∃ tree, print.trees = [tree])
    (h : Takes body answer next rest) :
    Turns (.wrap node body) true print.trees next.words ((print ++ next).node node).trees rest := by
  obtain ⟨tree, htree⟩ := htree
  have hframe := Turns.frame h print.trees
  rw [List.append_nil, htree] at hframe
  simpa [Print.node, htree] using Turns.wrap hframe

theorem loop_yes (hbody : Takes body true print (next.words ++ rest)) (hwords : print.words ≠ [])
    (hloop : Takes (.loop body) answer next rest) :
    Takes (.loop body) answer (print ++ next) rest :=
  Turns.loop_yes hbody hwords (by simpa using Turns.frame hloop print.trees)

end Takes

namespace Production

theorem takes_eat (h : token.kind = kind) : Takes (eat kind) true (.leaf token) rest :=
  Turns.at_yes (by simp [Print.leaf, Token.nextKind, h]) (Takes.bump h)

theorem takes_eat_none (h : Token.nextKind rest ≠ kind) : Takes (eat kind) false .empty rest :=
  Turns.at_no (by simpa [Print.empty] using h) (Takes.answered false)

theorem takes_expect (h : token.kind = kind) : Takes (expect kind) true (.leaf token) rest :=
  Turns.at_yes (by simp [Print.leaf, Token.nextKind, h]) (Takes.bump h)

theorem takes_whenAt_none {script : Production} (h : kinds.contains (Token.nextKind rest) = false) :
    Takes (whenAt kinds script) false .empty rest :=
  Turns.at_no h (Takes.answered false)

/-- A name is read as a node of its own, whatever may come instead of it. -/
theorem takes_nameOr (h : token.kind = .name) (stops : List TokenKind) :
    Takes (nameOr stops) true ((Print.leaf token).node .name) rest :=
  Turns.at_yes (by simp [Print.node, Print.leaf, Token.nextKind, h])
    (Takes.node (Takes.bump h))

end Production

end Syntax

end QuantumScript
