import QuantumScript.Proofs.Locating.Tokens
/-!
# Parts in a row

The parts of a node stand in the text one after the other, and what is seen of them are whole tokens. So
whatever is picked from the parts of a node comes from spans in a row, and is shown at positions that increase.
-/

namespace QuantumScript

/-- On an earlier line, or farther left on the same line. -/
def Position.Precedes (position other : Position) : Prop :=
  position.line < other.line ∨ position.line = other.line ∧ position.start < other.start

namespace Text

/-- The span cuts whole tokens out of the text, at least one of them with a text. -/
structure Cuts (text : List Char) (span : Span) : Prop where
  start : Syntax.Edge text span.start
  stop : Syntax.Edge text span.stop
  nonempty : span.start < span.stop

/-- What starts later is shown later. -/
theorem LineIndex.precedes_position {text : List Char} {span other : Span} (hstart : Boundary text span.start)
    (hother : Boundary text other.start) (hlt : span.start < other.start) :
    ((ofText text).position span).Precedes ((ofText text).position other) := by
  have hline := line_mono (ofText text) (Nat.le_of_lt hlt)
  have hpos := line_pos text span.start
  have hotherPos := line_pos text other.start
  unfold line at hline
  unfold Position.Precedes position
  dsimp only
  rcases Nat.lt_or_eq_of_le hline with hbefore | hsame
  · exact .inl (by omega)
  · exact .inr ⟨by rw [hsame], column_lt hstart hother hlt hsame.symm⟩

/-- The items stand one after the other at spans of whole tokens, between two offsets of the text. -/
inductive Row {α : Type} (text : List Char) (stands : α → Span → Prop) : Nat → Nat → List α → Prop
  | nil {first last : Nat} (hle : first ≤ last) : Row text stands first last []
  | cons {first last : Nat} {item : α} {items : List α} {span : Span} (hfirst : first ≤ span.start)
      (hcuts : Cuts text span) (hstands : stands item span) (hrest : Row text stands span.stop last items) :
      Row text stands first last (item :: items)

namespace Row

variable {α β : Type} {text : List Char} {stands : α → Span → Prop} {other : β → Span → Prop}
variable {first mid last earlier later : Nat} {items others : List α}

theorem le (h : Row text stands first last items) : first ≤ last := by
  induction h with
  | nil hle => exact hle
  | cons hfirst hcuts _ _ ih => exact Nat.le_trans hfirst (Nat.le_trans (Nat.le_of_lt hcuts.nonempty) ih)

theorem widen (h : Row text stands first last items) (hearlier : earlier ≤ first) (hlater : last ≤ later) :
    Row text stands earlier later items := by
  induction h generalizing earlier with
  | nil hle => exact .nil (Nat.le_trans hearlier (Nat.le_trans hle hlater))
  | cons hfirst hcuts hstands _ ih =>
    exact .cons (Nat.le_trans hearlier hfirst) hcuts hstands (ih (Nat.le_refl _) hlater)

theorem append (h : Row text stands first mid items) (hothers : Row text stands mid last others) :
    Row text stands first last (items ++ others) := by
  induction h with
  | nil hle => exact hothers.widen hle (Nat.le_refl _)
  | cons hfirst hcuts hstands _ ih => exact .cons hfirst hcuts hstands (ih hothers)

theorem split (h : Row text stands first last (items ++ others)) :
    ∃ mid, Row text stands first mid items ∧ Row text stands mid last others := by
  induction items generalizing first with
  | nil => exact ⟨first, .nil (Nat.le_refl _), h⟩
  | cons item items ih =>
    cases h with
    | cons hfirst hcuts hstands hrest =>
      obtain ⟨mid, hitems, hothers⟩ := ih hrest
      exact ⟨mid, .cons hfirst hcuts hstands hitems, hothers⟩

theorem sublist (h : Row text stands first last items) (hsub : others.Sublist items) :
    Row text stands first last others := by
  induction h generalizing others with
  | nil hle =>
    rw [List.sublist_nil.mp hsub]
    exact .nil hle
  | cons hfirst hcuts hstands _ ih =>
    cases hsub with
    | cons _ hsub => exact (ih hsub).widen (Nat.le_trans hfirst (Nat.le_of_lt hcuts.nonempty)) (Nat.le_refl _)
    | cons_cons _ hsub => exact .cons hfirst hcuts hstands (ih hsub)

theorem of_mem (h : Row text stands first last items) {item : α} (hmem : item ∈ items) :
    ∃ span, stands item span ∧ Cuts text span ∧ first ≤ span.start ∧ span.stop ≤ last := by
  have hone := h.sublist (List.singleton_sublist.mpr hmem)
  cases hone with
  | cons hfirst hcuts hstands hrest => exact ⟨_, hstands, hcuts, hfirst, hrest.le⟩

private theorem shorten (h : Row text stands first last items) (hle : first ≤ earlier)
    (hitems : ∀ item ∈ items, ∀ span, stands item span → span.stop ≤ earlier) :
    Row text stands first earlier items := by
  induction h with
  | nil => exact .nil hle
  | cons hfirst hcuts hstands _ ih =>
    obtain ⟨hitem, hrest⟩ := List.forall_mem_cons.mp hitems
    exact .cons hfirst hcuts hstands (ih (hitem _ hstands) hrest)

/-- Items that rows of others stand in are replaced by these. -/
theorem flatMap {f : α → List β} (h : Row text stands first last items)
    (hitems : ∀ item ∈ items, ∀ span, stands item span → Row text other span.start span.stop (f item)) :
    Row text other first last (items.flatMap f) := by
  induction h with
  | nil hle => exact .nil hle
  | cons hfirst _ hstands _ ih =>
    obtain ⟨hitem, hrest⟩ := List.forall_mem_cons.mp hitems
    exact ((hitem _ hstands).widen hfirst (Nat.le_refl _)).append (ih hrest)

theorem filterMap {f : α → Option β} (h : Row text stands first last items)
    (hitems : ∀ item ∈ items, ∀ found, f item = some found → ∀ span, stands item span → other found span) :
    Row text other first last (items.filterMap f) := by
  induction h with
  | nil hle => exact .nil hle
  | @cons first last item items span hfirst hcuts hstands _ ih =>
    obtain ⟨hitem, hrest⟩ := List.forall_mem_cons.mp hitems
    cases hfound : f item with
    | none =>
      rw [List.filterMap_cons_none hfound]
      exact (ih hrest).widen (Nat.le_trans hfirst (Nat.le_of_lt hcuts.nonempty)) (Nat.le_refl _)
    | some found =>
      rw [List.filterMap_cons_some hfound]
      exact .cons hfirst hcuts (hitem found hfound span hstands) (ih hrest)

theorem pairwise (h : Row text stands first last items) :
    items.Pairwise fun item next => ∃ span after, stands item span ∧ stands next after ∧
      Cuts text span ∧ Cuts text after ∧ span.stop ≤ after.start := by
  induction h with
  | nil => exact .nil
  | cons _ hcuts hstands hrest ih =>
    refine .cons (fun next hmem => ?_) ih
    obtain ⟨after, hnext, hafter, hle, _⟩ := hrest.of_mem hmem
    exact ⟨_, after, hstands, hnext, hcuts, hafter, hle⟩

end Row

end Text

namespace Ast

open Syntax
open Text (Cuts Row)

namespace Part

/-- The parts that are seen. -/
def seen (parts : List Part) : List Part := parts.filter fun part => part.extent.first.isSome

theorem mem_seen {part : Part} {parts : List Part} :
    part ∈ seen parts ↔ part ∈ parts ∧ part.extent.first.isSome = true := List.mem_filter

/-- The part is seen at the span. -/
def SeenAt (part : Part) (span : Span) : Prop := part.extent.core = span

private theorem start_extentOf {start : Nat} {parts rest : List Part} {part : Part}
    (h : seen parts = part :: rest) :
    (extentOf start parts).core.start = part.extent.core.start := by
  have hseen : part.extent.first.isSome = true := (mem_seen.mp (h ▸ List.mem_cons_self)).2
  obtain ⟨leaf, hleaf⟩ := Option.isSome_iff_exists.mp hseen
  have hfirst : (extentOf start parts).first = some leaf := by
    change Option.bind (seen parts).head? _ = _
    rw [h]
    exact hleaf
  rw [Extent.core, Extent.core, hfirst, hleaf]

private theorem stop_extentOf {start : Nat} {parts front : List Part} {part : Part}
    (h : seen parts = front ++ [part]) :
    (extentOf start parts).core.stop = part.extent.core.stop := by
  have hmem : part ∈ seen parts := h ▸ List.mem_append_right _ (List.mem_singleton_self part)
  have hlast : (extentOf start parts).last = part.extent.last := by
    change Option.getD (Option.map _ (seen parts).getLast?) _ = _
    rw [h, List.getLast?_append_of_ne_nil _ (List.cons_ne_nil _ _)]
    rfl
  have hseen : (extentOf start parts).first.isSome = true := by
    change (Option.bind (seen parts).head? _).isSome = true
    cases hparts : seen parts with
    | nil =>
      rw [hparts] at hmem
      cases hmem
    | cons first rest => exact (mem_seen.mp (hparts ▸ List.mem_cons_self)).2
  rw [Extent.stop_core hseen, hlast, Extent.stop_core (mem_seen.mp hmem).2]

theorem seen_ne_nil {start : Nat} {parts : List Part} (hseen : (extentOf start parts).first.isSome = true) :
    seen parts ≠ [] := by
  intro hparts
  change (Option.bind (seen parts).head? _).isSome = true at hseen
  rw [hparts] at hseen
  cases hseen

private theorem core_token (start : Nat) (kind : TokenKind) (text : List Char) :
    (ofTree start (.token kind text)).extent.core = ⟨start, start + Text.byteLength text⟩ := by
  rw [ofTree, extent, leafExtent, Extent.core]
  dsimp only
  split <;> rename_i hleaf
  · rfl
  · split at hleaf <;> cases hleaf
    rfl

mutual

private theorem start_le_ofTree (start : Nat) (tree : Tree)
    (hseen : (ofTree start tree).extent.first.isSome = true) :
    start ≤ (ofTree start tree).extent.core.start := by
  match tree with
  | .token kind text => rw [core_token]
  | .node kind children =>
    rw [ofTree, extent_assemble] at hseen ⊢
    obtain ⟨part, rest, hparts⟩ := List.exists_cons_of_ne_nil (seen_ne_nil hseen)
    obtain ⟨hmem, hpart⟩ := mem_seen.mp (hparts ▸ List.mem_cons_self)
    rw [start_extentOf hparts]
    exact start_le_ofTrees start children part hmem hpart

private theorem start_le_ofTrees (start : Nat) (trees : List Tree) :
    ∀ part ∈ ofTrees start trees, part.extent.first.isSome = true → start ≤ part.extent.core.start := by
  match trees with
  | [] =>
    intro part hmem
    rw [ofTrees] at hmem
    cases hmem
  | tree :: trees =>
    rw [ofTrees_cons]
    refine List.forall_mem_cons.mpr ⟨start_le_ofTree start tree, fun part hmem hseen => ?_⟩
    exact Nat.le_trans (Nat.le_add_right _ _) (start_le_ofTrees _ trees part hmem hseen)

end

mutual

private theorem edges_ofTree {text : List Char} {start : Nat} (tree : Tree) (h : Spelled text start tree.leaves)
    (hseen : (ofTree start tree).extent.first.isSome = true) :
    Edge text (ofTree start tree).extent.core.start ∧ Edge text (ofTree start tree).extent.core.stop := by
  match tree with
  | .token kind own =>
    rw [core_token]
    have hedges := h.edges
    rwa [Tree.leaves, List.flatMap_singleton] at hedges
  | .node kind children =>
    rw [ofTree, extent_assemble] at hseen ⊢
    have hparts : ∀ part ∈ seen (ofTrees start children),
        Edge text part.extent.core.start ∧ Edge text part.extent.core.stop := fun part hmem =>
      edges_ofTrees children h part (mem_seen.mp hmem).1 (mem_seen.mp hmem).2
    obtain ⟨first, rest, hfirst⟩ := List.exists_cons_of_ne_nil (seen_ne_nil hseen)
    obtain ⟨front, last, hlast⟩ := (List.eq_nil_or_concat' _).resolve_left (seen_ne_nil hseen)
    rw [start_extentOf hfirst, stop_extentOf hlast]
    exact ⟨(hparts first (hfirst ▸ List.mem_cons_self)).1,
      (hparts last (hlast ▸ List.mem_append_right _ (List.mem_singleton_self last))).2⟩

private theorem edges_ofTrees {text : List Char} {start : Nat} (trees : List Tree)
    (h : Spelled text start (Tree.leavesAll trees)) :
    ∀ part ∈ ofTrees start trees, part.extent.first.isSome = true →
      Edge text part.extent.core.start ∧ Edge text part.extent.core.stop := by
  match trees with
  | [] =>
    intro part hmem
    rw [ofTrees] at hmem
    cases hmem
  | tree :: trees =>
    obtain ⟨htree, htrees⟩ := h.append
    rw [ofTrees_cons, Tree.byteLength_eq]
    exact List.forall_mem_cons.mpr ⟨edges_ofTree tree htree, edges_ofTrees trees htrees⟩

end

/-- What is seen of a part that stands in the text is cut out of it. -/
theorem cuts_ofTree {text : List Char} {start : Nat} {tree : Tree} (h : Spelled text start tree.leaves)
    (hseen : (ofTree start tree).extent.first.isSome = true) : Cuts text (ofTree start tree).extent.core := by
  obtain ⟨hstart, hstop⟩ := edges_ofTree tree h hseen
  have hspelled : Spelled text start (Tree.leavesAll [tree]) := by
    rwa [Tree.leavesAll, Tree.leavesAll, List.append_nil]
  obtain ⟨leaf, hleaf, hstands, hle, -⟩ := hspelled.clear (ofTree start tree)
    (by rw [ofTrees_cons]; exact List.mem_cons_self) hseen
  refine ⟨hstart, hstop, ?_⟩
  rw [Extent.core, hleaf]
  exact Nat.lt_of_lt_of_le hstands.nonempty hle

/-- Parts next to each other are seen in a row. -/
theorem row_ofTrees {text : List Char} {start : Nat} {trees : List Tree}
    (h : Spelled text start (Tree.leavesAll trees)) :
    Row text SeenAt start (start + Tree.byteLengthAll trees) (seen (ofTrees start trees)) := by
  induction trees generalizing start with
  | nil => exact .nil (Nat.le_add_right _ _)
  | cons tree trees ih =>
    obtain ⟨htree, htrees⟩ := h.append
    have hwithin := within_ofTree start tree
    rw [← Tree.text, ← Tree.byteLength_eq] at htrees
    have hrest := ih htrees
    rw [Nat.add_assoc] at hrest
    rw [ofTrees_cons, seen, List.filter_cons]
    split
    · rename_i hseen
      refine .cons (start_le_ofTree start tree hseen) (cuts_ofTree htree hseen) rfl (hrest.widen ?_ (Nat.le_refl _))
      rw [Extent.stop_core hseen]
      exact Nat.le_trans hwithin.last_le hwithin.stop_le
    · exact hrest.widen (Nat.le_add_right _ _) (Nat.le_refl _)

/-- Parts that are seen in a row are seen where the node is that they make. -/
theorem row_extentOf {text : List Char} {start first last : Nat} {parts : List Part}
    (hpairwise : parts.Pairwise fun part other => part.extent.last ≤ other.extent.last)
    (h : Row text SeenAt first last (seen parts)) (hseen : (extentOf start parts).first.isSome = true) :
    Row text SeenAt (extentOf start parts).core.start (extentOf start parts).core.stop (seen parts) := by
  have hstop : ∀ part ∈ seen parts, part.extent.core.stop ≤ (extentOf start parts).core.stop := by
    intro part hmem
    obtain ⟨hmem, hpart⟩ := mem_seen.mp hmem
    rw [Extent.stop_core hseen, Extent.stop_core hpart]
    exact (extentOf_of_mem hpairwise hmem hpart).2
  obtain ⟨part, rest, hparts⟩ := List.exists_cons_of_ne_nil (seen_ne_nil hseen)
  rw [hparts] at h hstop ⊢
  rw [start_extentOf hparts]
  cases h with
  | cons _ hcuts hstands hrest =>
    obtain ⟨hpart, _⟩ := List.forall_mem_cons.mp hstop
    have hspan : part.extent.core = _ := hstands
    refine (Row.cons (Nat.le_of_eq (congrArg Span.start hspan)) hcuts hstands hrest).shorten ?_ ?_
    · exact Nat.le_trans (Nat.le_of_lt (hspan ▸ hcuts.nonempty)) hpart
    · rintro item hmem span rfl
      exact hstop item hmem

/-- What is picked from parts in a row is in a row, if it is seen. -/
theorem row_picked {α : Type} {text : List Char} {first last : Nat} {parts : List Part}
    (h : Row text SeenAt first last (seen parts)) {pick : Part → Option α} {extent : α → Extent}
    (hpick : ∀ part found, pick part = some found → part.extent = extent found)
    (hseen : ∀ part ∈ parts, ∀ found, pick part = some found → part.extent.first.isSome = true) :
    Row text (fun found span => (extent found).core = span) first last (parts.filterMap pick) := by
  have hfilter : (seen parts).filterMap pick = parts.filterMap pick := by
    rw [seen, List.filterMap_filter]
    refine List.filterMap_congr fun part hmem => ?_
    cases hfound : pick part with
    | none => rw [ite_self]
    | some found => rw [if_pos (hseen part hmem found hfound)]
  rw [← hfilter]
  refine h.filterMap fun part _ found hfound span hspan => ?_
  rw [← hpick part found hfound]
  exact hspan

end Part

end Ast

end QuantumScript
