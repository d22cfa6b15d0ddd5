import QuantumScript.Proofs.Parsing.Simulation
/-!
# Respelled parses

The grammar looks at the kinds of tokens and not at their texts. Where the tokens of a text have the same
kinds but other texts, the tree is the same but for the texts of its leaves.
-/

namespace QuantumScript

namespace Syntax

/-- The token with its text changed. -/
def Token.mapText (f : List Char → List Char) (token : Token) : Token := { token with text := f token.text }

namespace Tree

mutual

/-- The tree with the texts of its leaves changed. -/
def mapText (f : List Char → List Char) : Tree → Tree
  | .token kind text => .token kind (f text)
  | .node kind children => .node kind (mapTexts f children)

def mapTexts (f : List Char → List Char) : List Tree → List Tree
  | [] => []
  | tree :: trees => mapText f tree :: mapTexts f trees

end

theorem mapTexts_eq_map (f : List Char → List Char) (trees : List Tree) :
    mapTexts f trees = trees.map (mapText f) := by
  induction trees with
  | nil => rfl
  | cons tree trees ih => rw [mapTexts, ih, List.map_cons]

/-- The tree without the texts of its leaves. -/
def shape : Tree → Tree := mapText fun _ => []

mutual

/-- Changing texts leaves the kinds. -/
theorem shape_mapText (f : List Char → List Char) (tree : Tree) : (mapText f tree).shape = tree.shape := by
  match tree with
  | .token kind text => rfl
  | .node kind children => exact congrArg (Tree.node kind) (shape_mapTexts f children)

private theorem shape_mapTexts (f : List Char → List Char) (trees : List Tree) :
    mapTexts (fun _ => []) (mapTexts f trees) = mapTexts (fun _ => []) trees := by
  match trees with
  | [] => rfl
  | tree :: trees =>
    rw [mapTexts, mapTexts, mapTexts, shape_mapTexts f trees]
    exact congrArg (· :: _) (shape_mapText f tree)

end

private theorem nodeKind?_mapText (f : List Char → List Char) (tree : Tree) :
    (mapText f tree).nodeKind? = tree.nodeKind? := by
  cases tree <;> rfl

private theorem tokenKind?_mapText (f : List Char → List Char) (tree : Tree) :
    (mapText f tree).tokenKind? = tree.tokenKind? := by
  cases tree <;> rfl

end Tree

private theorem Label.resolve_mapText (f : List Char → List Char) (label : Label) (trees : List Tree) :
    label.resolve (trees.map (Tree.mapText f)) = label.resolve trees := by
  cases label <;>
    simp only [resolve, List.any_map, Function.comp_def, Tree.nodeKind?_mapText, Tree.tokenKind?_mapText]

/-- The second parse is the first one with the texts of tokens changed. Its errors may stand at other places
and show other texts. -/
structure Respelled (f : List Char → List Char) (p q : Parse) : Prop where
  rest : q.rest = p.rest.map (Token.mapText f)
  parts : q.parts = p.parts.map (Tree.mapText f)
  mark : q.mark = p.mark
  errors : q.errors.length = p.errors.length

namespace Respelled

variable {f : List Char → List Char} {p q : Parse}

theorem shiftWhile (test : TokenKind → Bool) (h : Respelled f p q) :
    Respelled f (p.shiftWhile fun token => test token.kind) (q.shiftWhile fun token => test token.kind) := by
  rw [Parse.shiftWhile_eq, Parse.shiftWhile_eq]
  refine ⟨?_, ?_, h.mark, h.errors⟩
  · dsimp only
    rw [h.rest, List.dropWhile_map]
    rfl
  · dsimp only
    rw [h.rest, List.takeWhile_map, h.parts, List.map_append, List.map_reverse, List.map_map, List.map_map]
    rfl

theorem flush (h : Respelled f p q) : Respelled f p.flush q.flush := h.shiftWhile _

theorem shift (h : Respelled f p q) : Respelled f p.shift q.shift := by
  cases hrest : p.rest with
  | nil =>
    have hother : q.rest = [] := by rw [h.rest, hrest, List.map_nil]
    rw [Parse.shift, Parse.shift, hrest, hother]
    exact h
  | cons token tokens =>
    have hother : q.rest = token.mapText f :: tokens.map (Token.mapText f) := by
      rw [h.rest, hrest, List.map_cons]
    rw [Parse.shift, Parse.shift, hrest, hother]
    refine ⟨rfl, ?_, h.mark, h.errors⟩
    dsimp only
    rw [h.parts, List.map_cons]
    rfl

theorem kinds (h : Respelled f p q) :
    (Token.significant q.rest).map Token.kind = (Token.significant p.rest).map Token.kind := by
  rw [h.rest, Token.significant, List.filter_map, List.map_map]
  rfl

theorem take (h : Respelled f p q) (hend : p.current ≠ .endOfInput) : Respelled f p.take q.take := by
  have hother : q.current ≠ .endOfInput := by
    have hcurrent : q.current = p.current := by
      have hkinds := h.kinds
      rw [Parse.current_eq, Parse.current_eq]
      cases hp : Token.significant p.rest <;> cases hq : Token.significant q.rest <;>
        simp_all [Token.nextKind]
    rwa [hcurrent]
  rw [Parse.take, Parse.take, if_neg hend, if_neg hother]
  exact h.flush.shift

theorem book (h : Respelled f p q) (problem other : Problem) :
    Respelled f (p.book problem) (q.book other) :=
  ⟨h.rest, h.parts, h.mark, by rw [Parse.book, Parse.book, List.length_cons, List.length_cons, h.errors]⟩

theorem close (h : Respelled f p q) (label : Label) (checkpoint : Nat) :
    Respelled f (p.close label.resolve checkpoint) (q.close label.resolve checkpoint) := by
  have hlength : q.parts.length = p.parts.length := by rw [h.parts, List.length_map]
  unfold Parse.close
  rw [hlength]
  split
  · refine ⟨h.rest, ?_, rfl, h.errors⟩
    dsimp only
    rw [h.parts, ← List.map_take, ← List.map_reverse, Label.resolve_mapText, ← List.map_drop, List.map_cons,
      Tree.mapText, Tree.mapTexts_eq_map]
  · exact ⟨h.rest, h.parts, h.mark, h.errors⟩

theorem simulation (f : List Char → List Char) : Simulation (Respelled f) where
  kinds := kinds
  booked := errors
  fail h := ⟨h.rest, h.parts, h.mark, h.errors⟩
  flush := flush
  take := take
  book problem h := h.book problem problem
  unexpected h := h.book _ _
  close label hbefore h := by
    rw [hbefore.parts, List.length_map]
    exact h.close label _
  wrap kind hbefore h := by
    rw [hbefore.mark]
    exact h.close (.always kind) _

end Respelled

/-- The parse of tokens with other texts has the same tree but for the texts. -/
theorem parts_parseTokens_mapText (f : List Char → List Char) (tokens : List Token) :
    (parseTokens (tokens.map (Token.mapText f))).parts = (parseTokens tokens).parts.map (Tree.mapText f) := by
  have hsim := Respelled.simulation f
  have hstart : Respelled f (.start tokens) (.start (tokens.map (Token.mapText f))) := ⟨rfl, rfl, rfl, rfl⟩
  have hrun := (hsim.run (hsim.runRule grammar (callDepth * (tokens.length + 1))) Production.file _ _ hstart).2
  rw [parseTokens, parseTokens, List.length_map]
  exact (hrun.shiftWhile fun _ => true).parts

end Syntax

end QuantumScript
