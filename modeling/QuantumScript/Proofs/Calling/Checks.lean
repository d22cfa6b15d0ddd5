import Mathlib
import QuantumScript.Inference.State
import QuantumScript.Proofs.Lists
/-!
# Checks of calls

What a check of a call reports is said without going through the arguments one by one: which parameter an
argument is for, and when it does not fit it, hangs on the argument, on the number of positional arguments
before it and on the signature. From this follow what is reported, in which order, and that knowing less
of an argument takes away no more than its own report.
-/

namespace QuantumScript

namespace CallArgument

/-- The argument is told from others by its place: it is not unpacked and has no keyword. -/
def isPositional (argument : CallArgument) : Bool := !argument.unpacked && argument.keyword.isNone

/-- The number of positional arguments that stand before the index. -/
def rank (arguments : List CallArgument) (i : Nat) : Nat := (arguments.take i).countP isPositional

theorem rank_cons_succ (first : CallArgument) (rest : List CallArgument) (i : Nat) :
    rank (first :: rest) (i + 1) = (if first.isPositional then 1 else 0) + rank rest i := by
  simp [rank, List.countP_cons, Nat.add_comm]

private theorem rank_set {arguments : List CallArgument} {i : Nat} {argument : CallArgument}
    (h : arguments[i]? = some argument) (type : Option SymbolType) (k : Nat) :
    rank (arguments.set i { argument with type }) k = rank arguments k := by
  induction arguments generalizing i k with
  | nil => simp at h
  | cons first rest ih =>
    cases k with
    | zero => simp [rank]
    | succ k =>
      cases i with
      | zero =>
        obtain rfl : first = argument := by simpa using h
        simp [rank_cons_succ, isPositional]
      | succ i =>
        simp only [List.set_cons_succ, rank_cons_succ]
        rw [ih (by simpa using h)]

end CallArgument

namespace Signature

open CallArgument

/-- The argument at index `i` is for the parameter at index `j`: it is not unpacked, and the parameter is
the first one of its keyword, or if it has none the one of its rank. -/
inductive Takes (signature : Signature) (arguments : List CallArgument) (i j : Nat)
    (argument : CallArgument) (parameter : ParameterSpec) : Prop
  | named (keyword : String) (hargument : arguments[i]? = some argument)
      (hparameter : signature.parameters[j]? = some parameter) (hpacked : argument.unpacked = false)
      (hkeyword : argument.keyword = some keyword) (hname : parameter.name = keyword)
      (hfirst : ∀ other ∈ signature.parameters.take j, other.name ≠ keyword)
  | placed (hargument : arguments[i]? = some argument)
      (hparameter : signature.parameters[j]? = some parameter) (hpacked : argument.unpacked = false)
      (hkeyword : argument.keyword = none) (hrank : j = rank arguments i)

/-- The diagnostic says that the argument at index `i` does not fit the parameter at index `j` that it is
for: its type is known, the type that the parameter names is too, and they are not compatible. -/
def Misfits (signature : Signature) (table : SymbolTable) (arguments : List CallArgument) (i j : Nat)
    (diagnostic : Diagnostic) : Prop :=
  ∃ argument parameter found typeName expected, signature.Takes arguments i j argument parameter ∧
    argument.type = some found ∧ parameter.typeName = some typeName ∧
    table.resolveType? typeName = some expected ∧ found.isCompatible expected = false ∧
    diagnostic = .ofFinding
      (.argumentTypeMismatch (j + 1) signature.name expected.name found.name) argument.site

private theorem parameter?_eq_some {signature : Signature} {keyword : String} {j : Nat}
    {parameter : ParameterSpec} : signature.parameter? keyword = some (j, parameter) ↔
      signature.parameters[j]? = some parameter ∧ parameter.name = keyword ∧
        ∀ other ∈ signature.parameters.take j, other.name ≠ keyword := by
  have hindex (hj : j < signature.parameters.length) :
      (signature.parameters.findIdx fun other => decide (other.name = keyword)) = j ↔
        signature.parameters[j].name = keyword ∧
          ∀ other ∈ signature.parameters.take j, other.name ≠ keyword := by
    rw [List.findIdx_eq hj, List.forall_mem_iff_forall_getElem]
    simp only [decide_eq_true_eq, decide_eq_false_iff_not, List.getElem_take, List.length_take]
    exact and_congr_right fun _ => ⟨fun h k hk => h k (by omega), fun h k hk => h k (by omega)⟩
  simp only [parameter?, Option.map_eq_some_iff, Prod.mk.injEq]
  constructor
  · rintro ⟨_, hparameter, hfound, rfl⟩
    rw [hfound] at hparameter
    obtain ⟨hj, rfl⟩ := List.getElem?_eq_some_iff.mp hparameter
    exact ⟨hparameter, (hindex hj).mp hfound⟩
  · rintro ⟨hparameter, hname⟩
    obtain ⟨hj, rfl⟩ := List.getElem?_eq_some_iff.mp hparameter
    have hfound := (hindex hj).mpr hname
    exact ⟨_, hfound ▸ hparameter, hfound, rfl⟩

/-- The problem of the argument at an index, where `rank` positional arguments stand before all. -/
def problemAt (signature : Signature) (table : SymbolTable) (rank : Nat) (arguments : List CallArgument)
    (i : Nat) : Option Diagnostic :=
  arguments[i]?.bind fun argument =>
    if argument.unpacked then none
    else
      (signature.parameterFor? (rank + CallArgument.rank arguments i) argument).bind
        (signature.typeProblem? table argument)

theorem typeProblems_cons (signature : Signature) (table : SymbolTable) (rank : Nat)
    (first : CallArgument) (rest : List CallArgument) :
    signature.typeProblems table rank (first :: rest) =
      (signature.problemAt table rank (first :: rest) 0).toList ++
        signature.typeProblems table (rank + if first.isPositional then 1 else 0) rest := by
  rw [typeProblems]
  by_cases hunpacked : first.unpacked = true
  · simp [problemAt, isPositional, hunpacked]
  · cases hkeyword : first.keyword <;> simp [problemAt, isPositional, CallArgument.rank, hunpacked, hkeyword]

theorem problemAt_cons_succ (signature : Signature) (table : SymbolTable) (rank : Nat)
    (first : CallArgument) (rest : List CallArgument) (i : Nat) :
    signature.problemAt table rank (first :: rest) (i + 1) =
      signature.problemAt table (rank + if first.isPositional then 1 else 0) rest i := by
  simp [problemAt, rank_cons_succ, Nat.add_assoc]

/-- The problems of arguments are those at their indexes, in order. -/
theorem typeProblems_eq (signature : Signature) (table : SymbolTable) (rank : Nat)
    (arguments : List CallArgument) : signature.typeProblems table rank arguments =
      (List.range arguments.length).filterMap (signature.problemAt table rank arguments) := by
  induction arguments generalizing rank with
  | nil => rfl
  | cons first rest ih =>
    have hrest : (fun i => signature.problemAt table rank (first :: rest) (i + 1)) =
        signature.problemAt table (rank + if first.isPositional then 1 else 0) rest :=
      funext (signature.problemAt_cons_succ table rank first rest)
    rw [typeProblems_cons, ih, ← hrest, List.length_cons, List.range_succ_eq_map]
    cases hown : signature.problemAt table rank (first :: rest) 0 <;> simp [hown]

private theorem typeProblem?_eq_some {signature : Signature} {table : SymbolTable} {argument : CallArgument}
    {j : Nat} {parameter : ParameterSpec} {diagnostic : Diagnostic} :
    signature.typeProblem? table argument (j, parameter) = some diagnostic ↔
      ∃ found typeName expected, argument.type = some found ∧ parameter.typeName = some typeName ∧
        table.resolveType? typeName = some expected ∧ found.isCompatible expected = false ∧
        diagnostic = .ofFinding
          (.argumentTypeMismatch (j + 1) signature.name expected.name found.name) argument.site := by
  constructor
  · intro h
    unfold typeProblem? at h
    split at h
    · rename_i found expected hfound hexpected
      obtain ⟨typeName, hname, hresolved⟩ := Option.bind_eq_some_iff.mp hexpected
      split at h
      · cases h
      · rename_i hfits
        exact ⟨found, typeName, expected, hfound, hname, hresolved, by simpa using hfits,
          (Option.some.inj h).symm⟩
    · cases h
  · rintro ⟨found, typeName, expected, hfound, hname, hresolved, hfits, rfl⟩
    unfold typeProblem?
    simp only [hfound, hname, Option.bind_some, hresolved]
    rw [hfits, if_neg Bool.false_ne_true]

theorem takes_iff {signature : Signature} {arguments : List CallArgument} {i j : Nat}
    {argument : CallArgument} {parameter : ParameterSpec} :
    signature.Takes arguments i j argument parameter ↔ arguments[i]? = some argument ∧
      argument.unpacked = false ∧
      signature.parameterFor? (rank arguments i) argument = some (j, parameter) := by
  constructor
  · rintro (⟨keyword, hargument, hparameter, hpacked, hkeyword, hname, hfirst⟩ |
      ⟨hargument, hparameter, hpacked, hkeyword, rfl⟩)
    · refine ⟨hargument, hpacked, ?_⟩
      simp only [parameterFor?, hkeyword]
      exact parameter?_eq_some.mpr ⟨hparameter, hname, hfirst⟩
    · exact ⟨hargument, hpacked, by simp [parameterFor?, hkeyword, hparameter]⟩
  · rintro ⟨hargument, hpacked, hfound⟩
    cases hkeyword : argument.keyword with
    | none =>
      simp only [parameterFor?, hkeyword, Option.map_eq_some_iff, Prod.mk.injEq] at hfound
      obtain ⟨_, hparameter, rfl, rfl⟩ := hfound
      exact .placed hargument hparameter hpacked hkeyword rfl
    | some keyword =>
      simp only [parameterFor?, hkeyword] at hfound
      obtain ⟨hparameter, hname, hfirst⟩ := parameter?_eq_some.mp hfound
      exact .named keyword hargument hparameter hpacked hkeyword hname hfirst

theorem problemAt_eq_some {signature : Signature} {table : SymbolTable} {arguments : List CallArgument}
    {i : Nat} {diagnostic : Diagnostic} : signature.problemAt table 0 arguments i = some diagnostic ↔
      ∃ j, signature.Misfits table arguments i j diagnostic := by
  simp only [problemAt, Nat.zero_add, Option.bind_eq_some_iff, Misfits, takes_iff]
  constructor
  · rintro ⟨argument, hargument, hproblem⟩
    by_cases hunpacked : argument.unpacked = true
    · simp [hunpacked] at hproblem
    · rw [if_neg hunpacked, Option.bind_eq_some_iff] at hproblem
      obtain ⟨⟨j, parameter⟩, hfound, hproblem⟩ := hproblem
      obtain ⟨found, typeName, expected, hrest⟩ := typeProblem?_eq_some.mp hproblem
      exact ⟨j, argument, parameter, found, typeName, expected,
        ⟨hargument, by simpa using hunpacked, hfound⟩, hrest⟩
  · rintro ⟨j, argument, parameter, found, typeName, expected, ⟨hargument, hpacked, hfound⟩, hrest⟩
    refine ⟨argument, hargument, ?_⟩
    rw [hpacked, if_neg Bool.false_ne_true, hfound]
    exact typeProblem?_eq_some.mpr ⟨found, typeName, expected, hrest⟩

private theorem problemAt_set (signature : Signature) (table : SymbolTable) {arguments : List CallArgument}
    {i : Nat} {argument : CallArgument} (h : arguments[i]? = some argument) {type : Option SymbolType}
    (htype : type = none ∨ type = some .any) (k : Nat) :
    signature.problemAt table 0 (arguments.set i { argument with type }) k =
      if k = i then none else signature.problemAt table 0 arguments k := by
  by_cases hk : k = i
  · subst hk
    rw [if_pos rfl, Option.eq_none_iff_forall_ne_some]
    intro diagnostic hproblem
    obtain ⟨j, other, parameter, found, typeName, expected, htakes, hfound, -, -, hfits, -⟩ :=
      problemAt_eq_some.mp hproblem
    have hother : other.type = type := by
      have hsome := (takes_iff.mp htakes).1
      rw [List.getElem?_set_self (List.getElem?_eq_some_iff.mp h).1, Option.some.injEq] at hsome
      rw [← hsome]
    rcases htype with rfl | rfl
    · simp [hother] at hfound
    · rw [hother, Option.some.injEq] at hfound
      simp [← hfound, SymbolType.isCompatible, SymbolType.isAny] at hfits
  · simp only [problemAt, rank_set h, List.getElem?_set_ne (Ne.symm hk), if_neg hk]

theorem arityProblem?_eq (signature : Signature) (arguments : List CallArgument) :
    signature.arityProblem? arguments =
      if signature.variadic = false ∧ (∀ argument ∈ arguments, argument.unpacked = false) ∧
          (arguments.length < signature.required ∨ signature.allowed < arguments.length) then
        some (.arityMismatch signature.name signature.required signature.allowed arguments.length)
      else none := by
  unfold arityProblem?
  by_cases hfree : signature.variadic || arguments.any CallArgument.unpacked
  · rw [if_pos hfree, if_neg]
    rintro ⟨hvariadic, hpacked, -⟩
    simp only [hvariadic, Bool.false_or, List.any_eq_true] at hfree
    obtain ⟨argument, hmem, hunpacked⟩ := hfree
    simp [hpacked argument hmem] at hunpacked
  · have hexact : signature.variadic = false ∧ ∀ argument ∈ arguments, argument.unpacked = false := by
      simpa using hfree
    rw [if_neg hfree]
    simp only [hexact.1, true_and, and_iff_right hexact.2, Bool.or_eq_true, decide_eq_true_eq]

/-- Where the arguments can be counted, either their number is wrong or their types are looked at. -/
theorem check_of_counted {signature : Signature} (hvariadic : signature.variadic = false)
    {arguments : List CallArgument} (hpacked : ∀ argument ∈ arguments, argument.unpacked = false)
    (table : SymbolTable) (site : Site) : signature.check table site arguments =
      if arguments.length < signature.required ∨ signature.allowed < arguments.length then
        [.ofFinding (.arityMismatch signature.name signature.required signature.allowed arguments.length) site]
      else signature.typeProblems table 0 arguments := by
  rw [check, arityProblem?_eq]
  simp only [hvariadic, true_and, and_iff_right hpacked]
  by_cases hwrong : arguments.length < signature.required ∨ signature.allowed < arguments.length
  · simp only [if_pos hwrong]
  · simp only [if_neg hwrong]

private theorem arityProblem?_set (signature : Signature) {arguments : List CallArgument} {i : Nat}
    {argument : CallArgument} (h : arguments[i]? = some argument) (type : Option SymbolType) :
    signature.arityProblem? (arguments.set i { argument with type }) = signature.arityProblem? arguments := by
  have hunpacked : (arguments.set i { argument with type }).map CallArgument.unpacked =
      arguments.map CallArgument.unpacked := by
    have hi : i < (arguments.map CallArgument.unpacked).length := by
      simpa using (List.getElem?_eq_some_iff.mp h).1
    have hsame : (arguments.map CallArgument.unpacked)[i] = argument.unpacked := by
      rw [List.getElem_map, (List.getElem?_eq_some_iff.mp h).2]
    rw [List.map_set, ← hsame, List.set_getElem_self]
  have hany (items : List CallArgument) :
      items.any CallArgument.unpacked = (items.map CallArgument.unpacked).any id := by simp
  simp only [arityProblem?, List.length_set]
  rw [hany, hunpacked, ← hany]

/-- Where the number of arguments is wrong they cannot be given to different parameters so that each
required one gets one. -/
private theorem not_covers_of_arity {signature : Signature} {arguments : List CallArgument}
    (h : arguments.length < signature.required ∨ signature.allowed < arguments.length)
    {give : Fin arguments.length → Fin signature.parameters.length} (hgive : Function.Injective give) :
    ∃ p, signature.parameters[p].optional = false ∧ ∀ i, give i ≠ p := by
  by_contra hcovers
  push Not at hcovers
  have hallowed : arguments.length ≤ signature.allowed := by
    simpa [allowed] using Fintype.card_le_of_injective give hgive
  -- Every required parameter is among those that the arguments are given to.
  have hrequired : signature.required ≤ arguments.length := by
    let needed := (List.finRange signature.parameters.length).filter
      fun p => !signature.parameters[p].optional
    have hlength : signature.required = needed.length := by
      have hall := List.map_getElem_finRange signature.parameters
      calc signature.required
        _ = (((List.finRange signature.parameters.length).map (signature.parameters[·.1])).filter
              fun parameter => !parameter.optional).length := by
            rw [hall]
            rfl
        _ = needed.length := by
            rw [List.filter_map, List.length_map]
            rfl
    have hsubset : needed ⊆ (List.finRange arguments.length).map give := by
      intro p hp
      obtain ⟨i, hi⟩ := hcovers p (by simpa [needed] using hp)
      exact List.mem_map.mpr ⟨i, List.mem_finRange i, hi⟩
    have hnodup : needed.Nodup := (List.nodup_finRange _).filter _
    simpa [hlength] using (List.subperm_of_subset hnodup hsubset).length_le
  omega

/-- Checking a call reports what is wrong with it and no more, whatever the signature, the arguments, the
table and the diagnostics before it are. Those before it are kept. If the signature is not variadic, no
argument is unpacked and the number of arguments is none that the signature takes, then this alone is
reported, at the callee; and however such arguments are given to different parameters, a required one is
left out. Else one diagnostic is reported for each argument that does not fit the parameter it is for, in
the order of the arguments. If the type of an argument is forgotten, or becomes that of anything, then the
report on this argument is left out if there is one, and all else is reported as before. -/
theorem check_exact (signature : Signature) (site : Site) (arguments : List CallArgument)
    (state : Inference.State) :
    let table := state.table
    let found := signature.check table site arguments
    let given := arguments.length
    let required := (signature.parameters.filter fun parameter => !parameter.optional).length
    let refused := signature.variadic = false ∧ (∀ argument ∈ arguments, argument.unpacked = false) ∧
      (given < required ∨ signature.parameters.length < given)
    ((Inference.call (.signature signature site) arguments).run state).2 =
        { state with diagnostics := state.diagnostics ++ found } ∧
      (refused →
        found = [.ofFinding
          (.arityMismatch signature.name required signature.parameters.length given) site] ∧
        ∀ give : Fin given → Fin signature.parameters.length, Function.Injective give →
          ∃ p, signature.parameters[p].optional = false ∧ ∀ i, give i ≠ p) ∧
      (¬refused → ∃ indexes : List Nat, indexes.Pairwise (· < ·) ∧
        (∀ i, i ∈ indexes ↔ ∃ j diagnostic, signature.Misfits table arguments i j diagnostic) ∧
        List.Forall₂ (fun i diagnostic => ∃ j, signature.Misfits table arguments i j diagnostic)
          indexes found) ∧
      ∀ i argument type, arguments[i]? = some argument → (type = none ∨ type = some .any) →
        ∃ before own after, found = before ++ own ++ after ∧
          signature.check table site (arguments.set i { argument with type }) = before ++ after ∧
          own.length ≤ 1 ∧ ∀ diagnostic ∈ own, ∃ j, signature.Misfits table arguments i j diagnostic := by
  intro table found given required refused
  have harity : signature.arityProblem? arguments = if refused then
      some (.arityMismatch signature.name required signature.parameters.length given) else none :=
    signature.arityProblem?_eq arguments
  have htypes (other : List CallArgument) (h : signature.arityProblem? other = none) :
      signature.check table site other =
        (List.range other.length).filterMap (signature.problemAt table 0 other) := by
    rw [check, h, ← typeProblems_eq]
  refine ⟨rfl, fun hrefused => ⟨?_, fun give => not_covers_of_arity hrefused.2.2⟩, fun hrefused => ?_, ?_⟩
  · rw [if_pos hrefused] at harity
    simp only [found, check, harity]
  · rw [if_neg hrefused] at harity
    let problem := signature.problemAt table 0 arguments
    refine ⟨(List.range given).filter fun i => (problem i).isSome, ?_, fun i => ?_, ?_⟩
    · exact List.pairwise_lt_range.filter _
    · have hindex (diagnostic : Diagnostic) (h : problem i = some diagnostic) : i < given := by
        obtain ⟨argument, hargument, -⟩ := Option.bind_eq_some_iff.mp h
        exact (List.getElem?_eq_some_iff.mp hargument).1
      simp only [List.mem_filter, List.mem_range, Option.isSome_iff_exists]
      constructor
      · rintro ⟨-, diagnostic, hproblem⟩
        obtain ⟨j, hmisfits⟩ := problemAt_eq_some.mp hproblem
        exact ⟨j, diagnostic, hmisfits⟩
      · rintro ⟨j, diagnostic, hmisfits⟩
        have hproblem := problemAt_eq_some.mpr ⟨j, hmisfits⟩
        exact ⟨hindex diagnostic hproblem, diagnostic, hproblem⟩
    · simp only [found, htypes arguments harity]
      exact forall₂_filterMap fun i _ diagnostic => problemAt_eq_some.mp
  · intro i argument type hargument htype
    let weaker := arguments.set i { argument with type }
    have hkept : signature.arityProblem? weaker = signature.arityProblem? arguments :=
      signature.arityProblem?_set hargument type
    by_cases hrefused : refused
    · rw [if_pos hrefused] at harity
      refine ⟨found, [], [], by simp, ?_, by simp, by simp⟩
      simp only [found, weaker, check, hkept, harity, List.append_nil]
    · rw [if_neg hrefused] at harity
      have hi : i < given := (List.getElem?_eq_some_iff.mp hargument).1
      obtain ⟨before, after, hfound, hwithout⟩ :=
        filterMap_range_without (signature.problemAt table 0 arguments) hi
      have hproblems : signature.problemAt table 0 weaker =
          fun k => if k = i then none else signature.problemAt table 0 arguments k :=
        funext (signature.problemAt_set table hargument htype)
      refine ⟨before, (signature.problemAt table 0 arguments i).toList, after, ?_, ?_, ?_, ?_⟩
      · rw [← hfound]
        exact htypes arguments harity
      · rw [← hwithout, ← hproblems, htypes weaker (hkept.trans harity), List.length_set]
      · exact Option.length_toList_le
      · intro diagnostic hmem
        exact problemAt_eq_some.mp (Option.mem_toList.mp hmem)

end Signature

end QuantumScript
