import QuantumScript.SymbolTable
import Mathlib.Data.List.Chain
/-!
# Versions of a name

A scope keeps its bindings by line. Adding one splits them at its line: what is made no later stays
before it, the rest comes behind it. A binding that is left out because it follows one of the same
line and type is never missed: what a scope answers for a name is the same as if it were there.
-/

namespace QuantumScript

namespace Scope

/-- The bindings of a scope by line. -/
def Sorted (bindings : List Binding) : Prop := bindings.Pairwise fun a b => a.line ≤ b.line

/-- Neither of two bindings says what the other says. -/
def Differ (a b : Binding) : Prop := ¬(a.line = b.line ∧ a.type = b.type)

/-- The versions of each name are ordered by line, and none repeats the one before it. -/
structure Ordered (scope : Scope) : Prop where
  sorted : Sorted scope.bindings
  differ : ∀ name, (scope.versions name).IsChain Differ

section Sorting

variable {bindings : List Binding}

private theorem filter_late_eq_nil {line : Nat} (h : ∀ b ∈ bindings, line < b.line) :
    bindings.filter (fun b => b.line ≤ line) = [] := by
  rw [List.filter_eq_nil_iff]
  intro b hmem
  simpa using h b hmem

theorem Sorted.split (h : Sorted bindings) (line : Nat) :
    bindings.filter (fun b => b.line ≤ line) ++ bindings.filter (fun b => line < b.line) =
      bindings := by
  induction bindings with
  | nil => rfl
  | cons first rest ih =>
    obtain ⟨hfirst, hrest⟩ := List.pairwise_cons.mp h
    by_cases hle : first.line ≤ line
    · rw [List.filter_cons_of_pos (by simpa using hle),
        List.filter_cons_of_neg (by simpa using hle), List.cons_append, ih hrest]
    · have hlate : ∀ b ∈ first :: rest, line < b.line := by
        intro b hmem
        rcases List.mem_cons.mp hmem with rfl | hmem
        · omega
        · have := hfirst b hmem
          omega
      rw [filter_late_eq_nil hlate, List.nil_append, List.filter_eq_self]
      intro b hmem
      simpa using hlate b hmem

private theorem insertSorted_eq (h : Sorted bindings) (binding : Binding) :
    insertSorted binding bindings =
      bindings.filter (fun b => b.line ≤ binding.line) ++
        binding :: bindings.filter fun b => binding.line < b.line := by
  induction bindings with
  | nil => rfl
  | cons first rest ih =>
    obtain ⟨hfirst, hrest⟩ := List.pairwise_cons.mp h
    rw [insertSorted]
    by_cases hle : first.line ≤ binding.line
    · rw [if_pos hle, ih hrest, List.filter_cons_of_pos (by simpa using hle),
        List.filter_cons_of_neg (by simpa using hle), List.cons_append]
    · have hlate : ∀ b ∈ first :: rest, binding.line < b.line := by
        intro b hmem
        rcases List.mem_cons.mp hmem with rfl | hmem
        · omega
        · have := hfirst b hmem
          omega
      rw [if_neg hle, filter_late_eq_nil hlate, List.nil_append, List.filter_eq_self.mpr]
      intro b hmem
      simpa using hlate b hmem

theorem Sorted.insertSorted (h : Sorted bindings) (binding : Binding) :
    Sorted (insertSorted binding bindings) := by
  rw [insertSorted_eq h, Sorted, List.pairwise_append, List.pairwise_cons]
  refine ⟨h.filter _, ⟨?_, h.filter _⟩, ?_⟩
  · intro b hmem
    have := (List.mem_filter.mp hmem).2
    simp only [decide_eq_true_eq] at this
    omega
  · intro a hbefore b hbehind
    have hle := (List.mem_filter.mp hbefore).2
    simp only [decide_eq_true_eq] at hle
    rcases List.mem_cons.mp hbehind with rfl | hmem
    · exact hle
    · have := (List.mem_filter.mp hmem).2
      simp only [decide_eq_true_eq] at this
      omega

end Sorting

variable {scope : Scope}

theorem Ordered.versions_sorted (h : scope.Ordered) (name : String) :
    Sorted (scope.versions name) :=
  h.sorted.filter _

theorem mem_versions {name : String} {binding : Binding} :
    binding ∈ scope.versions name ↔ binding ∈ scope.bindings ∧ binding.name = name := by
  simp [versions]

/-- The last version no later than a line, said of sorted versions. -/
theorem latestAt_eq (scope : Scope) (name : String) (line : Nat) :
    scope.latestAt name line =
      ((scope.versions name).filter fun b => b.line ≤ line).getLast? := rfl

/-- The binding would follow one of the same line and type. -/
def Repeats (scope : Scope) (binding : Binding) : Prop :=
  ∃ latest, scope.latestAt binding.name binding.line = some latest ∧
    latest.line = binding.line ∧ latest.type = binding.type

/-- A binding that repeats one is left out, any other is put at its place. -/
theorem insert_cases (scope : Scope) (binding : Binding) :
    (scope.Repeats binding ∧ scope.insert binding = scope) ∨
      (¬scope.Repeats binding ∧ scope.insert binding =
        { scope with bindings := insertSorted binding scope.bindings }) := by
  unfold insert
  cases hlatest : scope.latestAt binding.name binding.line with
  | none =>
    refine .inr ⟨?_, rfl⟩
    rintro ⟨latest, hsome, _⟩
    rw [hlatest] at hsome
    cases hsome
  | some latest =>
    by_cases hsame : latest.line = binding.line ∧ latest.type = binding.type
    · exact .inl ⟨⟨latest, hlatest, hsame⟩, if_pos (by simpa using hsame)⟩
    · refine .inr ⟨?_, if_neg (by simpa using hsame)⟩
      rintro ⟨other, hsome, hother⟩
      rw [hlatest] at hsome
      cases hsome
      exact hsame hother

@[simp] theorem parent_insert (scope : Scope) (binding : Binding) :
    (scope.insert binding).parent = scope.parent := by
  rcases scope.insert_cases binding with ⟨_, heq⟩ | ⟨_, heq⟩ <;> rw [heq]

@[simp] theorem depth_insert (scope : Scope) (binding : Binding) :
    (scope.insert binding).depth = scope.depth := by
  rcases scope.insert_cases binding with ⟨_, heq⟩ | ⟨_, heq⟩ <;> rw [heq]

@[simp] theorem openedAt_insert (scope : Scope) (binding : Binding) :
    (scope.insert binding).openedAt = scope.openedAt := by
  rcases scope.insert_cases binding with ⟨_, heq⟩ | ⟨_, heq⟩ <;> rw [heq]

@[simp] theorem closedAt_insert (scope : Scope) (binding : Binding) :
    (scope.insert binding).closedAt = scope.closedAt := by
  rcases scope.insert_cases binding with ⟨_, heq⟩ | ⟨_, heq⟩ <;> rw [heq]

private theorem versions_insertSorted (h : Sorted scope.bindings) (binding : Binding) :
    versions { scope with bindings := insertSorted binding scope.bindings } binding.name =
      (scope.versions binding.name).filter (fun b => b.line ≤ binding.line) ++
        binding :: (scope.versions binding.name).filter fun b => binding.line < b.line := by
  have hown (rest : List Binding) :
      (binding :: rest).filter (fun b => b.name = binding.name) =
        binding :: rest.filter fun b => b.name = binding.name :=
    List.filter_cons_of_pos (decide_eq_true rfl)
  simp only [versions, insertSorted_eq h, List.filter_append]
  rw [hown]
  simp only [List.filter_filter, Bool.and_comm]

private theorem versions_insertSorted_ne (h : Sorted scope.bindings) {binding : Binding}
    {name : String} (hname : binding.name ≠ name) :
    versions { scope with bindings := insertSorted binding scope.bindings } name =
      scope.versions name := by
  have hsplit := congrArg (List.filter fun b : Binding => b.name = name) (h.split binding.line)
  rw [List.filter_append] at hsplit
  simp only [versions, insertSorted_eq h, List.filter_append]
  rw [List.filter_cons_of_neg (by simpa using hname), hsplit]

/-- No version of another name is touched. -/
theorem versions_insert_ne (h : scope.Ordered) {binding : Binding} {name : String}
    (hname : binding.name ≠ name) : (scope.insert binding).versions name = scope.versions name := by
  rcases scope.insert_cases binding with ⟨_, heq⟩ | ⟨_, heq⟩
  · rw [heq]
  · rw [heq, versions_insertSorted_ne h.sorted hname]

theorem Ordered.insert (h : scope.Ordered) (binding : Binding) : (scope.insert binding).Ordered := by
  rcases scope.insert_cases binding with ⟨_, heq⟩ | ⟨hnew, heq⟩
  · rwa [heq]
  rw [heq]
  refine ⟨h.sorted.insertSorted binding, fun name => ?_⟩
  by_cases hname : binding.name = name
  · subst hname
    rw [versions_insertSorted h.sorted]
    have hall := h.differ binding.name
    rw [← (h.versions_sorted binding.name).split binding.line, List.isChain_append] at hall
    obtain ⟨hbefore, hbehind, _⟩ := hall
    rw [List.isChain_append, List.isChain_cons]
    refine ⟨hbefore, ⟨?_, hbehind⟩, ?_⟩
    · intro next hnext hsame
      have hlate := (List.mem_filter.mp (List.mem_of_mem_head? hnext)).2
      simp only [decide_eq_true_eq] at hlate
      omega
    · intro last hlast next hnext hsame
      obtain rfl : binding = next := by simpa using hnext
      exact hnew ⟨last, hlast, hsame⟩
  · rw [versions_insertSorted_ne h.sorted hname]
    exact h.differ name

theorem mem_insert (h : scope.Ordered) {binding other : Binding}
    (hmem : other ∈ (scope.insert binding).bindings) : other = binding ∨ other ∈ scope.bindings := by
  rcases scope.insert_cases binding with ⟨_, heq⟩ | ⟨_, heq⟩
  · rw [heq] at hmem
    exact .inr hmem
  · rw [heq, insertSorted_eq h.sorted] at hmem
    rcases List.mem_append.mp hmem with hmem | hmem
    · exact .inr (List.mem_filter.mp hmem).1
    · rcases List.mem_cons.mp hmem with rfl | hmem
      · exact .inl rfl
      · exact .inr (List.mem_filter.mp hmem).1

private theorem latestAt_of_le {name : String} {line earlier : Nat} {latest : Binding}
    (hlatest : scope.latestAt name line = some latest) (hle : latest.line ≤ earlier)
    (hearlier : earlier ≤ line) (h : Sorted (scope.versions name)) :
    scope.latestAt name earlier = some latest := by
  rw [latestAt_eq] at hlatest ⊢
  obtain ⟨before, hbefore⟩ := List.getLast?_eq_some_iff.mp hlatest
  have hsorted : Sorted (before ++ [latest]) := hbefore ▸ h.filter _
  have hnone : ∀ b ∈ (scope.versions name).filter (fun b => b.line ≤ line),
      b.line ≤ earlier := by
    intro b hmem
    rw [hbefore] at hmem
    rcases List.mem_append.mp hmem with hmem | hmem
    · exact Nat.le_trans ((List.pairwise_append.mp hsorted).2.2 b hmem latest (by simp)) hle
    · rw [List.mem_singleton.mp hmem]
      exact hle
  have hsame : (scope.versions name).filter (fun b => b.line ≤ earlier) =
      (scope.versions name).filter fun b => b.line ≤ line := by
    apply List.filter_congr
    intro b hmem
    rw [decide_eq_decide]
    constructor
    · omega
    · intro hb
      exact hnone b (List.mem_filter.mpr ⟨hmem, by simpa using hb⟩)
  rw [hsame, hlatest]

theorem mem_of_latestAt {name : String} {line : Nat} {latest : Binding}
    (h : scope.latestAt name line = some latest) :
    latest ∈ scope.versions name ∧ latest.line ≤ line := by
  have hmem := List.mem_filter.mp (List.mem_of_getLast? h)
  exact ⟨hmem.1, by simpa using hmem.2⟩

theorem Repeats.latestAt {binding : Binding} (h : scope.Repeats binding) :
    scope.latestAt binding.name binding.line = some binding := by
  obtain ⟨latest, hlatest, hline, htype⟩ := h
  have hname := (mem_versions.mp (mem_of_latestAt hlatest).1).2
  obtain rfl : latest = binding := by
    cases latest
    cases binding
    simp_all
  exact hlatest

private theorem getLast?_cons_or (binding : Binding) (bindings : List Binding) :
    (binding :: bindings).getLast? = bindings.getLast?.or (some binding) := by
  rw [← List.singleton_append, List.getLast?_append]
  rfl

/-- What a binding adds to the answers of its scope: from its line on it is the latest version, up to
the next version that is made later. -/
theorem latestAt_insert (h : scope.Ordered) (binding : Binding) (name : String) (line : Nat) :
    (scope.insert binding).latestAt name line =
      if binding.name = name ∧ binding.line ≤ line then
        match scope.latestAt name line with
        | some other => if other.line ≤ binding.line then some binding else some other
        | none => some binding
      else scope.latestAt name line := by
  by_cases hname : binding.name = name
  case neg =>
    rw [if_neg (fun hboth => hname hboth.1), latestAt_eq, versions_insert_ne h hname, latestAt_eq]
  subst hname
  have hsorted := h.versions_sorted binding.name
  rcases scope.insert_cases binding with ⟨hrepeats, heq⟩ | ⟨_, heq⟩
  · rw [heq]
    by_cases hline : binding.line ≤ line
    case neg => rw [if_neg (fun hboth => hline hboth.2)]
    rw [if_pos ⟨rfl, hline⟩]
    cases hlatest : scope.latestAt binding.name line with
    | none =>
      have hmem := mem_of_latestAt hrepeats.latestAt
      rw [latestAt_eq, List.getLast?_eq_none_iff, List.filter_eq_nil_iff] at hlatest
      exact absurd (by simpa using hline) (hlatest binding hmem.1)
    | some other =>
      by_cases hother : other.line ≤ binding.line
      · have hsame := latestAt_of_le hlatest hother hline hsorted
        rw [hrepeats.latestAt] at hsame
        cases hsame
        simp
      · simp [hother]
  · have hold := congrArg (List.filter fun b : Binding => decide (b.line ≤ line))
      (hsorted.split binding.line)
    rw [List.filter_append] at hold
    rw [latestAt_eq, heq, versions_insertSorted h.sorted, latestAt_eq, ← hold, List.filter_append]
    by_cases hline : binding.line ≤ line
    · rw [if_pos ⟨rfl, hline⟩, List.filter_cons_of_pos (by simpa using hline),
        List.getLast?_append, List.getLast?_append, getLast?_cons_or]
      cases hbehind : (((scope.versions binding.name).filter fun b => binding.line < b.line).filter
          fun b => b.line ≤ line).getLast? with
      | some other =>
        have hmem := List.mem_filter.mp (List.mem_filter.mp (List.mem_of_getLast? hbehind)).1
        have hlate : ¬other.line ≤ binding.line := by simpa using hmem.2
        simp [hlate]
      | none =>
        simp only [Option.none_or, Option.some_or]
        cases hbefore : (((scope.versions binding.name).filter
            fun b => b.line ≤ binding.line).filter fun b => b.line ≤ line).getLast? with
        | none => rfl
        | some other =>
          have hmem := List.mem_filter.mp (List.mem_filter.mp (List.mem_of_getLast? hbefore)).1
          have hle : other.line ≤ binding.line := by simpa using hmem.2
          simp [hle]
    · rw [if_neg (fun hboth => hline hboth.2), List.filter_cons_of_neg (by simpa using hline)]

/-- A binding is the first version unless there is one that is not later. -/
theorem head?_versions_insert (h : scope.Ordered) (binding : Binding) (name : String) :
    ((scope.insert binding).versions name).head? =
      if binding.name = name then
        match (scope.versions name).head? with
        | some other => if binding.line < other.line then some binding else some other
        | none => some binding
      else (scope.versions name).head? := by
  by_cases hname : binding.name = name
  case neg => rw [if_neg hname, versions_insert_ne h hname]
  subst hname
  have hsorted := h.versions_sorted binding.name
  rw [if_pos rfl]
  rcases scope.insert_cases binding with ⟨hrepeats, heq⟩ | ⟨_, heq⟩
  · rw [heq]
    have hmem := (mem_of_latestAt hrepeats.latestAt).1
    cases hversions : scope.versions binding.name with
    | nil =>
      rw [hversions] at hmem
      cases hmem
    | cons first rest =>
      rw [hversions] at hmem hsorted
      have hfirst : first.line ≤ binding.line := by
        rcases List.mem_cons.mp hmem with rfl | hmem
        · exact Nat.le_refl _
        · exact (List.pairwise_cons.mp hsorted).1 binding hmem
      simp [Nat.not_lt.mpr hfirst]
  · rw [heq, versions_insertSorted h.sorted]
    cases hversions : scope.versions binding.name with
    | nil => rfl
    | cons first rest =>
      rw [hversions] at hsorted
      by_cases hfirst : first.line ≤ binding.line
      · rw [List.filter_cons_of_pos (by simpa using hfirst)]
        simp [Nat.not_lt.mpr hfirst]
      · have hlate : ∀ b ∈ first :: rest, binding.line < b.line := by
          intro b hmem
          rcases List.mem_cons.mp hmem with rfl | hmem
          · omega
          · have := (List.pairwise_cons.mp hsorted).1 b hmem
            omega
        rw [filter_late_eq_nil hlate]
        simp [Nat.lt_of_not_le hfirst]

end Scope

end QuantumScript
