import Mathlib.Data.List.Nodup
/-!
# What a partial function picks from a list

A function that has something for some of the items only picks it from them one by one, and without one item
the others still give what they gave.
-/

namespace QuantumScript

theorem forall₂_filterMap {α β : Type} {related : α → β → Prop} {f : α → Option β} {items : List α}
    (h : ∀ item ∈ items, ∀ found, f item = some found → related item found) :
    List.Forall₂ related (items.filter fun item => (f item).isSome) (items.filterMap f) := by
  induction items with
  | nil => exact .nil
  | cons item items ih =>
    obtain ⟨hitem, hitems⟩ := List.forall_mem_cons.mp h
    cases hfound : f item with
    | none =>
      rw [List.filterMap_cons_none hfound, List.filter_cons_of_neg (by rw [hfound]; exact Bool.false_ne_true)]
      exact ih hitems
    | some found =>
      rw [List.filterMap_cons_some hfound, List.filter_cons_of_pos (by rw [hfound]; rfl)]
      exact .cons (hitem found hfound) (ih hitems)

theorem filterMap_range_without {β : Type} (f : Nat → Option β) {i n : Nat} (h : i < n) :
    ∃ before after, (List.range n).filterMap f = before ++ (f i).toList ++ after ∧
      (List.range n).filterMap (fun k => if k = i then none else f k) = before ++ after := by
  obtain ⟨before, after, hrange⟩ := List.append_of_mem (List.mem_range.mpr h)
  have hnew : i ∉ before ++ after :=
    (List.nodup_cons.mp (List.nodup_middle.mp (hrange ▸ List.nodup_range))).1
  rw [List.mem_append, not_or] at hnew
  have hkept (items : List Nat) (hitems : i ∉ items) :
      items.filterMap (fun k => if k = i then none else f k) = items.filterMap f := by
    apply List.filterMap_congr
    intro k hk
    rw [if_neg (ne_of_mem_of_not_mem hk hitems)]
  refine ⟨before.filterMap f, after.filterMap f, ?_, ?_⟩
  · rw [hrange]
    cases hi : f i <;> simp [hi]
  · rw [hrange, List.filterMap_append, hkept before hnew.1]
    simp [hkept after hnew.2]

end QuantumScript
