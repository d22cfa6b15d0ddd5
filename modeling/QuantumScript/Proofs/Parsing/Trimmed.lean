import QuantumScript.Proofs.Parsing.Everywhere
import QuantumScript.Proofs.Parsing.Invariants
import QuantumScript.Proofs.Parsing.Steps
/-!
# Nodes without blanks in front

A node begins after the blanks and comments ahead have been taken, so none of them comes first in it. A node
that is made of the one completed last begins where that one did. Its mark must have been set inside the
node that is open, since the open node would lose parts otherwise; that is checked on the scripts. Whether
a node is empty does not matter: what counts is the first token from its start on.
-/

namespace QuantumScript

namespace Syntax

/-- No blank and no comment comes first. -/
def Tree.Trimmed (leaves : List (TokenKind × List Char)) : Prop :=
  ∀ leaf ∈ leaves.head?, leaf.1.isTrivia = false

/-- Every node in the tree is trimmed. -/
abbrev Tree.EachTrimmed : Tree → Prop := Tree.Each fun _ children => Trimmed (leavesAll children)

theorem Tree.Trimmed.of_append {leaves others : List (TokenKind × List Char)}
    (h : Trimmed (leaves ++ others)) : Trimmed leaves := by
  cases leaves with
  | nil => exact nofun
  | cons leaf leaves => exact h

namespace Parse

open QuantumScript.Syntax.Tree

/-- The parts above the base hold trimmed nodes only. Their leaves, with the tokens ahead after them, are the
flow. -/
structure Lies (base : List Tree) (flow : List (TokenKind × List Char)) (parse : Parse) (top : List Tree) :
    Prop where
  parts : parse.parts = top ++ base
  leaves : leavesAll top.reverse ++ parse.rest.map Token.entry = flow
  trimmed : ∀ tree ∈ top, tree.EachTrimmed

/-- The node that was completed last begins above the base, and so that what comes from there on is trimmed. -/
def MarkedIn (base : List Tree) (parse : Parse) (top : List Tree) : Prop :=
  ∃ late early, top = late ++ early ∧ parse.mark = (early ++ base).length ∧
    Trimmed (leavesAll late.reverse ++ parse.rest.map Token.entry)

/-- The nodes above the base are trimmed. If `marked`, one of them may be made a part of the next node. -/
def Tidy (base : List Tree) (flow : List (TokenKind × List Char)) (marked : Bool) (parse : Parse) : Prop :=
  ∃ top, parse.Lies base flow top ∧ (marked = true → parse.MarkedIn base top)

namespace Tidy

variable {base below : List Tree} {flow inner : List (TokenKind × List Char)} {marked : Bool} {parse : Parse}

theorem of_imp {other : Bool} (himp : other = true → marked = true) (h : parse.Tidy base flow marked) :
    parse.Tidy base flow other := by
  obtain ⟨top, hlies, hmarked⟩ := h
  exact ⟨top, hlies, fun hother => hmarked (himp hother)⟩

theorem shift (h : parse.Tidy base flow marked) : parse.shift.Tidy base flow marked := by
  obtain ⟨top, hlies, hmarked⟩ := h
  unfold Parse.shift
  split
  · exact ⟨top, hlies, hmarked⟩
  · rename_i token rest hrest
    have hleaves (trees : List Tree) :
        leavesAll (token.leaf :: trees).reverse ++ rest.map Token.entry =
          leavesAll trees.reverse ++ parse.rest.map Token.entry := by
      rw [List.reverse_cons, leavesAll_append, List.append_assoc, hrest]
      rfl
    refine ⟨token.leaf :: top, ⟨congrArg _ hlies.parts, ?_, ?_⟩, fun hmark => ?_⟩
    · exact (hleaves top).trans hlies.leaves
    · exact List.forall_mem_cons.mpr ⟨.token _ _, hlies.trimmed⟩
    · obtain ⟨late, early, rfl, hmark, htrimmed⟩ := hmarked hmark
      refine ⟨token.leaf :: late, early, rfl, hmark, ?_⟩
      rw [hleaves late]
      exact htrimmed

theorem stable (base : List Tree) (flow : List (TokenKind × List Char)) (marked : Bool) :
    Stable (Tidy base flow marked) where
  fail := fun ⟨top, hlies, hmarked⟩ => ⟨top, ⟨hlies.parts, hlies.leaves, hlies.trimmed⟩, hmarked⟩
  shift h := h.shift
  book _ := fun ⟨top, hlies, hmarked⟩ => ⟨top, ⟨hlies.parts, hlies.leaves, hlies.trimmed⟩, hmarked⟩

theorem enter (parse : Parse) :
    parse.flush.Tidy parse.flush.parts (parse.flush.rest.map Token.entry) false :=
  ⟨[], ⟨rfl, rfl, List.forall_mem_nil _⟩, nofun⟩

private theorem trimmed_flush (parse : Parse) : Trimmed (parse.flush.rest.map Token.entry) := by
  rw [flush, shiftWhile_eq]
  intro leaf hmem
  rw [List.head?_map] at hmem
  obtain ⟨token, htoken, rfl⟩ := Option.map_eq_some_iff.mp hmem
  have hhead : token.isTrivia = false := by
    simpa [htoken] using List.head?_dropWhile_not Token.isTrivia parse.rest
  exact hhead

theorem close (label : List Tree → NodeKind) {top : List Tree} (hparts : below = top ++ base)
    (hleaves : leavesAll top.reverse ++ inner = flow) (htop : ∀ tree ∈ top, tree.EachTrimmed)
    (hinner : Trimmed inner) (h : parse.Tidy below inner marked) :
    (parse.close label below.length).Tidy base flow true := by
  obtain ⟨own, hlies, -⟩ := h
  have hnode : leavesAll [.node (label own.reverse) own.reverse] = leavesAll own.reverse := by
    rw [leavesAll, leavesAll, Tree.leaves, List.append_nil]
  rw [close_eq label hlies.parts]
  refine ⟨.node (label own.reverse) own.reverse :: top, ⟨?_, ?_, ?_⟩, fun _ => ?_⟩
  · rw [hparts, List.cons_append]
  · rw [List.reverse_cons, leavesAll_append, hnode, List.append_assoc, hlies.leaves, hleaves]
  · refine List.forall_mem_cons.mpr ⟨.node ?_ fun tree hmem => ?_, htop⟩
    · exact Trimmed.of_append (hlies.leaves.symm ▸ hinner)
    · exact hlies.trimmed tree (List.mem_reverse.mp hmem)
  · refine ⟨[.node (label own.reverse) own.reverse], top, rfl, congrArg _ hparts, ?_⟩
    rw [List.reverse_singleton, hnode, hlies.leaves]
    exact hinner

theorem node (label : List Tree → NodeKind) {done : Bool} {next : Parse} (h : parse.Tidy base flow marked)
    (hnext : next.Tidy parse.flush.parts (parse.flush.rest.map Token.entry) done) :
    (next.close label parse.flush.parts.length).Tidy base flow true := by
  obtain ⟨top, hlies, -⟩ := (stable _ _ _).flush h
  exact hnext.close label hlies.parts hlies.leaves hlies.trimmed (trimmed_flush parse)

private theorem reopen (h : parse.Tidy base flow true) :
    ∃ below inner, parse.mark = below.length ∧ parse.Tidy below inner true ∧
      ∀ label done next, Tidy below inner done next → (next.close label below.length).Tidy base flow true := by
  obtain ⟨top, hlies, hmarked⟩ := h
  obtain ⟨late, early, rfl, hmark, htrimmed⟩ := hmarked rfl
  obtain ⟨hlate, hearly⟩ := List.forall_mem_append.mp hlies.trimmed
  refine ⟨early ++ base, leavesAll late.reverse ++ parse.rest.map Token.entry, hmark, ?_, ?_⟩
  · exact ⟨late, ⟨by rw [hlies.parts, List.append_assoc], rfl, hlate⟩,
      fun _ => ⟨late, [], (List.append_nil late).symm, hmark, htrimmed⟩⟩
  · intro label done next hnext
    refine hnext.close label rfl ?_ hearly htrimmed
    rw [← hlies.leaves, List.reverse_append, leavesAll_append, List.append_assoc]

end Tidy

end Parse

/-- The action keeps nodes trimmed. The flags tell for each answer whether a node has been completed inside the
open one. -/
def Action.Trims (marked : Bool) (flags : Bool × Bool) (action : Action) : Prop :=
  ∀ base flow parse, Parse.Tidy base flow marked parse →
    (action parse).2.Tidy base flow (if (action parse).1 then flags.1 else flags.2)

theorem Action.Trims.weaken {marked : Bool} {flags : Bool × Bool} {action : Action}
    (h : action.Trims marked flags) :
    ∀ base flow parse, Parse.Tidy base flow marked parse →
      (action parse).2.Tidy base flow (flags.1 && flags.2) := by
  intro base flow parse hparse
  refine (h base flow parse hparse).of_imp fun hboth => ?_
  rw [Bool.and_eq_true] at hboth
  split
  · exact hboth.1
  · exact hboth.2

theorem Action.Trims.iterate {marked : Bool} {flags : Bool × Bool} {action : Action}
    (h : action.Trims marked flags) (hround : marked = true → flags.1 = true)
    {base : List Tree} {flow : List (TokenKind × List Char)} {parse : Parse}
    (hparse : parse.Tidy base flow marked) :
    (Action.iterate action parse).Tidy base flow (flags.1 && flags.2) := by
  fun_induction Action.iterate action parse with
  | case1 parse next heq _ ih =>
    have hnext := h base flow parse hparse
    rw [heq] at hnext
    exact ih (hnext.of_imp hround)
  | case2 parse next heq _ =>
    have hnext := h.weaken base flow parse hparse
    rw [heq] at hnext
    exact (Parse.Tidy.stable _ _ _).fail hnext
  | case3 parse next heq =>
    have hnext := h.weaken base flow parse hparse
    rw [heq] at hnext
    exact hnext

namespace Script

variable {Rule : Type}

/-- Tells for each answer whether a node has been completed inside the open one by then, if the rules of
`makers` complete one when they answer yes. None if something may be wrapped before. -/
def completes (makers : Rule → Bool) : Script Rule → Bool → Option (Bool × Bool)
  | .answer value, marked => some (marked || !value, marked || value)
  | .bump _, marked | .demand _, marked | .ask _, marked => some (marked, marked)
  | .advance, marked => some (marked, true)
  | .report _, marked => some (true, marked)
  | .call rule, marked => some (marked || makers rule, marked)
  | .seq first second, marked =>
    (completes makers first marked).bind fun flags => completes makers second (flags.1 && flags.2)
  | .cond test yes no, marked =>
    (completes makers test marked).bind fun asked =>
      (completes makers yes asked.1).bind fun first =>
        (completes makers no asked.2).map fun other => (first.1 && other.1, first.2 && other.2)
  | .node _ body, _ | .statement _ body, _ => (completes makers body false).map fun _ => (true, true)
  | .wrap _ body, marked =>
    if marked then (completes makers body true).map fun _ => (true, true) else none
  | .loop body, marked =>
    (completes makers body marked).bind fun flags =>
      if !marked || flags.1 then some (flags.1 && flags.2, true) else none

private theorem run_trims {rules : Rule → Action} {makers : Rule → Bool}
    (hrules : ∀ rule marked, (rules rule).Trims marked (marked || makers rule, marked))
    (script : Script Rule) {marked : Bool} {flags : Bool × Bool}
    (h : completes makers script marked = some flags) : (run rules script).Trims marked flags := by
  induction script generalizing marked flags with
  | answer value =>
    cases h
    intro base flow parse hparse
    refine hparse.of_imp fun hflag => ?_
    cases value <;> simpa [run] using hflag
  | bump kind =>
    cases h
    intro base flow parse hparse
    rw [run_bump, ite_self]
    split
    · exact (Parse.Tidy.stable _ _ _).take hparse
    · exact (Parse.Tidy.stable _ _ _).fail hparse
  | demand kinds =>
    cases h
    intro base flow parse hparse
    rw [run_demand, ite_self]
    split
    · exact hparse
    · exact (Parse.Tidy.stable _ _ _).fail hparse
  | advance =>
    cases h
    exact fun base flow parse hparse => (Parse.Tidy.stable _ _ _).take hparse
  | report problem =>
    cases h
    exact fun base flow parse hparse => (Parse.Tidy.stable _ _ _).book problem hparse
  | ask question =>
    cases h
    intro base flow parse hparse
    rw [ite_self]
    exact hparse
  | call rule =>
    cases h
    exact hrules rule marked
  | seq first second hfirst hsecond =>
    obtain ⟨between, hbetween, h⟩ := Option.bind_eq_some_iff.mp h
    exact fun base flow parse hparse =>
      hsecond h base flow _ ((hfirst hbetween).weaken base flow parse hparse)
  | cond test yes no htest hyes hno =>
    obtain ⟨asked, hasked, h⟩ := Option.bind_eq_some_iff.mp h
    obtain ⟨first, hfirst, h⟩ := Option.bind_eq_some_iff.mp h
    obtain ⟨other, hother, rfl⟩ := Option.map_eq_some_iff.mp h
    intro base flow parse hparse
    have hnext := htest hasked base flow parse hparse
    rw [run_cond]
    split at hnext
    · rename_i hanswer
      rw [if_pos hanswer]
      refine (hyes hfirst base flow _ hnext).of_imp fun hflag => ?_
      split <;> simp_all
    · rename_i hanswer
      rw [if_neg hanswer]
      refine (hno hother base flow _ hnext).of_imp fun hflag => ?_
      split <;> simp_all
  | node label body hbody =>
    obtain ⟨inner, hinner, rfl⟩ := Option.map_eq_some_iff.mp h
    intro base flow parse hparse
    rw [ite_self]
    exact hparse.node _ (hbody hinner _ _ _ (.enter parse))
  | wrap kind body hbody =>
    rw [completes] at h
    split at h
    · obtain ⟨inner, hinner, rfl⟩ := Option.map_eq_some_iff.mp h
      intro base flow parse hparse
      rename_i hmarked
      obtain ⟨below, own, hmark, hstart, hclose⟩ := (hparse.of_imp fun _ => hmarked).reopen
      rw [ite_self, run_wrap, hmark]
      exact hclose (fun _ => kind) _ _ (hbody hinner _ _ _ hstart)
    · cases h
  | statement kind body hbody =>
    obtain ⟨inner, hinner, rfl⟩ := Option.map_eq_some_iff.mp h
    intro base flow parse hparse
    rw [ite_self]
    exact hparse.node (fun _ => _)
      ((Parse.Tidy.stable _ _ _).finishStatement _ (hbody hinner _ _ _ (.enter parse)))
  | loop body hbody =>
    obtain ⟨round, hround, h⟩ := Option.bind_eq_some_iff.mp h
    split at h
    · rename_i hkeeps
      cases h
      intro base flow parse hparse
      refine (hbody hround).iterate (fun hmarked => ?_) hparse
      simpa [hmarked] using hkeeps
    · cases h

end Script

namespace Rule

/-- Rules that have completed a node inside the open one when they answer yes. -/
def isMaker : Rule → Bool
  | .clauses | .statement | .simpleLine => false
  | _ => true

private theorem completes_grammar (rule : Rule) (marked : Bool) :
    ∃ flags, (grammar rule).completes isMaker marked = some flags ∧
      (marked || rule.isMaker) ≤ flags.1 ∧ marked ≤ flags.2 := by
  cases rule <;> cases marked <;> exact ⟨_, rfl, by decide, by decide⟩

end Rule

private theorem Script.runRule_trims (depth : Nat) (rule : Rule) (marked : Bool) :
    (Script.runRule grammar depth rule).Trims marked (marked || rule.isMaker, marked) := by
  induction depth generalizing rule marked with
  | zero => exact fun _ _ _ hparse => (Parse.Tidy.stable _ _ _).fail hparse
  | succ depth ih =>
    obtain ⟨flags, hflags, hyes, hno⟩ := rule.completes_grammar marked
    intro base flow parse hparse
    refine (run_trims ih (grammar rule) hflags base flow parse hparse).of_imp fun hflag => ?_
    split at hflag
    · exact (if_pos ‹_›).trans (hyes hflag)
    · exact (if_neg ‹_›).trans (hno hflag)

/-- Whatever the tokens, no blank and no comment comes first in a node below the root. -/
theorem trimmed_parseTokens (tokens : List Token) :
    ∀ tree ∈ (parseTokens tokens).parts, tree.EachTrimmed := by
  have hstart : (Parse.start tokens).Tidy [] (tokens.map Token.entry) false :=
    ⟨[], ⟨rfl, rfl, List.forall_mem_nil _⟩, nofun⟩
  obtain ⟨flags, hflags⟩ : ∃ flags, Production.file.completes Rule.isMaker false = some flags := ⟨_, rfl⟩
  obtain ⟨top, hlies, -⟩ := (Parse.Tidy.stable _ _ _).shiftWhile (fun _ => true)
    (Script.run_trims (Script.runRule_trims _) Production.file hflags _ _ _ hstart)
  rw [parseTokens, hlies.parts, List.append_nil]
  exact hlies.trimmed

end Syntax

end QuantumScript
