import Mathlib
import QuantumScript.Proofs.Calling.Checks
/-!
# Passing of arguments

Where a call binds an argument is told by the parameters as they are written. A value that is passed by its
place comes to the parameter of that place, if no starred parameter stands before it; the call of a method
passes the receiver first, and what is unpacked passes as many values as it holds. A keyword comes to the
parameter of its name.

A check goes by the signature instead, which tells nothing of starred parameters, and it does not count
what is unpacked. So it compares an argument with the parameter that it is bound to only if neither stands
before them.
-/

namespace QuantumScript

namespace Ast.Parameter

/-- An argument can be bound to the parameter. -/
def isNamed (parameter : Parameter) : Bool := !parameter.variadic && parameter.text.isSome

/-- The parameters that an argument can be bound to. -/
def named (items : List Parameter) : List Parameter := items.filter isNamed

/-- The number of the parameters that are bound by their place: those before the first starred one. -/
def reach (items : List Parameter) : Nat :=
  (named (items.takeWhile fun parameter => !parameter.variadic)).length

/-- The number of parameters that the receiver of a method is bound to. Where a starred parameter comes
first it takes the receiver. -/
def ofReceiver (isMethod : Bool) (items : List Parameter) : Nat := min isMethod.toNat (reach items)

/-- The number of parameters that the signature of a method leaves out. -/
def leftOut (isMethod : Bool) (items : List Parameter) : Nat :=
  (isMethod && items.head?.any isReceiver).toNat

theorem isNamed_of_isReceiver {parameter : Parameter} (h : parameter.isReceiver = true) :
    parameter.isNamed = true := by
  simp only [isReceiver, Bool.and_eq_true, decide_eq_true_eq] at h
  simp [isNamed, h]

theorem isSome_spec? (parameter : Parameter) : parameter.spec?.isSome = parameter.isNamed := by
  cases hvariadic : parameter.variadic <;> simp [spec?, isNamed, hvariadic]

private theorem getElem?_filterMap_spec? (items : List Parameter) (j : Nat) :
    (items.filterMap spec?)[j]? = (named items)[j]?.bind spec? := by
  induction items generalizing j with
  | nil => simp [named]
  | cons first rest ih =>
    cases hspec : first.spec? with
    | none =>
      have hnamed : first.isNamed = false := by rw [← isSome_spec?, hspec, Option.isSome_none]
      rw [List.filterMap_cons_none hspec, ih, named, named, List.filter_cons, hnamed]
      simp
    | some spec =>
      have hnamed : first.isNamed = true := by rw [← isSome_spec?, hspec, Option.isSome_some]
      rw [List.filterMap_cons_some hspec, named, List.filter_cons, if_pos hnamed]
      cases j with
      | zero => simp [hspec]
      | succ j => simpa [named] using ih j

private theorem named_withoutReceiver (isMethod : Bool) (items : List Parameter) :
    named (withoutReceiver isMethod items) = (named items).drop (leftOut isMethod items) := by
  cases items with
  | nil => simp [withoutReceiver, named]
  | cons first rest =>
    by_cases hreceiver : (isMethod && first.isReceiver) = true
    · have hnamed := isNamed_of_isReceiver (Bool.and_eq_true_iff.mp hreceiver).2
      simp [withoutReceiver, leftOut, named, hreceiver, hnamed]
    · simp [withoutReceiver, leftOut, hreceiver]

private theorem getElem?_signature? {isMethod : Bool} {name : Option Name} {parameters : Option Parameters}
    {returns : Option Holder} {signature : Signature}
    (h : signature? isMethod name parameters returns = some signature) (j : Nat) :
    signature.parameters[j]? =
      ((named (parametersOf parameters))[leftOut isMethod (parametersOf parameters) + j]?).bind spec? := by
  obtain ⟨_, -, rfl⟩ := Option.map_eq_some_iff.mp h
  simp only
  rw [getElem?_filterMap_spec?, named_withoutReceiver, List.getElem?_drop]

private theorem text_of_spec? {parameter : Parameter} {spec : ParameterSpec} (h : parameter.spec? = some spec) :
    parameter.text = some spec.name := by
  unfold spec? at h
  split at h
  · cases h
  · obtain ⟨name, hname, rfl⟩ := Option.map_eq_some_iff.mp h
    exact hname

private theorem reach_of_unstarred {items : List Parameter}
    (h : ∀ parameter ∈ items, parameter.variadic = false) :
    reach items = (named items).length := by
  have hall : items.takeWhile (fun parameter => !parameter.variadic) = items := by
    simpa [List.takeWhile_eq_self_iff] using h
  rw [reach, hall]

private theorem leftOut_le_ofReceiver (isMethod : Bool) (items : List Parameter) :
    leftOut isMethod items ≤ ofReceiver isMethod items := by
  cases items with
  | nil => simp [leftOut]
  | cons first rest =>
    by_cases hreceiver : (isMethod && first.isReceiver) = true
    · obtain ⟨rfl, hreceiver⟩ := Bool.and_eq_true_iff.mp hreceiver
      have hnamed := isNamed_of_isReceiver hreceiver
      have hvariadic : (!first.variadic) = true := (Bool.and_eq_true_iff.mp hnamed).1
      simp [leftOut, ofReceiver, reach, named, hreceiver, hvariadic, hnamed]
    · simp [leftOut, hreceiver]

end Ast.Parameter

namespace CallArgument

/-- The number of values that the argument passes by their place, where it unpacks to `length` of them. For
dictionaries the number does not matter, since nothing may be passed by its place after one. -/
def values (length : Nat) (argument : CallArgument) : Nat :=
  if argument.unpacked then length else if argument.keyword.isSome then 0 else 1

/-- The number of values that are passed by their place before the argument at index `i`. -/
def valuesBefore (lengths : Nat → Nat) (arguments : List CallArgument) (i : Nat) : Nat :=
  ∑ k ∈ Finset.range i, arguments[k]?.elim 0 (values (lengths k))

/-- The parameter that a call binds the argument at index `i` to, by its index among the named ones, where
the argument at each index `k` unpacks to `lengths k` values. Whether the call then fails, because a parameter
is given two values or none, is left open. -/
def place? (isMethod : Bool) (items : List Ast.Parameter) (lengths : Nat → Nat)
    (arguments : List CallArgument) (i : Nat) : Option Nat :=
  arguments[i]?.bind fun argument =>
    match argument.unpacked, argument.keyword with
    | true, _ => none
    | false, some keyword =>
      let taken := Ast.Parameter.ofReceiver isMethod items
      (((Ast.Parameter.named items).drop taken).findIdx? fun parameter =>
        parameter.text = some keyword).map (taken + ·)
    | false, none =>
      let place := isMethod.toNat + valuesBefore lengths arguments i
      if place < Ast.Parameter.reach items then some place else none

theorem rank_succ (arguments : List CallArgument) (i : Nat) :
    rank arguments (i + 1) =
      rank arguments i + arguments[i]?.elim 0 fun argument => if argument.isPositional then 1 else 0 := by
  rw [rank, List.take_add_one, List.countP_append]
  cases arguments[i]? <;> simp [rank, List.countP_cons]

private theorem valuesBefore_eq_rank {arguments : List CallArgument} {i : Nat}
    (h : ∀ other ∈ arguments.take i, other.unpacked = false) (lengths : Nat → Nat) :
    valuesBefore lengths arguments i = rank arguments i := by
  induction i with
  | zero => simp [valuesBefore, rank]
  | succ i ih =>
    rw [List.take_add_one, List.forall_mem_append] at h
    rw [valuesBefore, Finset.sum_range_succ, ← valuesBefore, ih h.1, rank_succ]
    congr 1
    cases hargument : arguments[i]? with
    | none => rfl
    | some argument =>
      have hpacked : argument.unpacked = false := h.2 argument (by simp [hargument])
      cases hkeyword : argument.keyword <;> simp [values, isPositional, hpacked, hkeyword]

private theorem le_valuesBefore {arguments : List CallArgument} {i : Nat}
    (h : ∃ other ∈ arguments.take i, other.unpacked = true) (length : Nat) :
    length ≤ valuesBefore (fun _ => length) arguments i := by
  obtain ⟨other, hmem, hunpacked⟩ := h
  obtain ⟨k, hk, rfl⟩ := List.mem_take_iff_getElem.mp hmem
  have hterm : length = arguments[k]?.elim 0 (values length) := by
    rw [List.getElem?_eq_getElem (by omega)]
    simp [values, hunpacked]
  conv_lhs => rw [hterm]
  apply Finset.single_le_sum (f := fun k => arguments[k]?.elim 0 (values length)) (by simp)
  simp only [Finset.mem_range]
  omega

end CallArgument

namespace Signature

open Ast CallArgument

section

variable {isMethod : Bool} {name : Option Name} {parameters : Option Parameters}
  {returns : Option Holder} {signature : Signature} {arguments : List CallArgument} {i j : Nat}
  {argument : CallArgument}

private theorem place?_keyword (h : signature? isMethod name parameters returns = some signature)
    {keyword : String} (hargument : arguments[i]? = some argument) (hpacked : argument.unpacked = false)
    (hkeyword : argument.keyword = some keyword) {parameter : ParameterSpec}
    (hparameter : signature.parameters[j]? = some parameter) (hname : parameter.name = keyword)
    (hfirst : ∀ other ∈ signature.parameters.take j, other.name ≠ keyword) (lengths : Nat → Nat) :
    place? isMethod (parametersOf parameters) lengths arguments i =
        some (Parameter.leftOut isMethod (parametersOf parameters) + j) ↔
      Parameter.ofReceiver isMethod (parametersOf parameters) ≤
        Parameter.leftOut isMethod (parametersOf parameters) + j := by
  have hspecs := Parameter.getElem?_signature? h
  have hleft := Parameter.leftOut_le_ofReceiver isMethod (parametersOf parameters)
  have hreceiver : Parameter.ofReceiver isMethod (parametersOf parameters) ≤ 1 := by
    cases isMethod <;> simp [Parameter.ofReceiver]
  simp only [place?, hargument, Option.bind_some, hpacked, hkeyword, Option.map_eq_some_iff]
  generalize Parameter.leftOut isMethod (parametersOf parameters) = left at *
  generalize Parameter.ofReceiver isMethod (parametersOf parameters) = taken at *
  generalize hitems : Parameter.named (parametersOf parameters) = items at *
  constructor
  · rintro ⟨m, -, hm⟩
    omega
  · intro htaken
    refine ⟨left + j - taken, ?_, by omega⟩
    obtain ⟨own, hown, hspec⟩ := Option.bind_eq_some_iff.mp ((hspecs j).symm.trans hparameter)
    obtain ⟨hlt, rfl⟩ := List.getElem?_eq_some_iff.mp hown
    rw [List.findIdx?_eq_some_iff_getElem]
    refine ⟨by simp only [List.length_drop]; omega, ?_, fun k hk => ?_⟩
    · have hindex : taken + (left + j - taken) = left + j := by omega
      simp only [List.getElem_drop, hindex, Parameter.text_of_spec? hspec, hname, decide_true]
    · -- The parameters before it that the receiver is not bound to stand in the signature too.
      have hindex : left + (taken + k - left) = taken + k := by omega
      have hmem : items[taken + k] ∈ Parameter.named (parametersOf parameters) := by
        rw [hitems]
        apply List.getElem_mem
      obtain ⟨other, hother⟩ := Option.isSome_iff_exists.mp
        ((Parameter.isSome_spec? items[taken + k]).trans (List.mem_filter.mp hmem).2)
      have hbefore : signature.parameters[taken + k - left]? = some other := by
        rw [hspecs, hindex, List.getElem?_eq_getElem (by omega), Option.bind_some, hother]
      have hnot : other.name ≠ keyword := by
        apply hfirst
        rw [List.mem_iff_getElem?]
        exact ⟨taken + k - left, by rw [List.getElem?_take_of_lt (by omega), hbefore]⟩
      simpa only [List.getElem_drop, Parameter.text_of_spec? hother, decide_eq_true_eq,
        Option.some.injEq] using hnot

/-- A value that is passed by its place comes to the parameter that it is compared with if all places are
told, and only then. -/
private theorem place?_positional (hargument : arguments[i]? = some argument)
    (hpacked : argument.unpacked = false)
    (hkeyword : argument.keyword = none) (items : List Parameter) (left : Nat) :
    (∀ lengths, place? isMethod items lengths arguments i = some (left + rank arguments i)) ↔
      (∀ other ∈ arguments.take i, other.unpacked = false) ∧ left = isMethod.toNat ∧
        left + rank arguments i < Parameter.reach items := by
  have hplace (lengths : Nat → Nat) :
      place? isMethod items lengths arguments i = some (left + rank arguments i) ↔
        isMethod.toNat + valuesBefore lengths arguments i = left + rank arguments i ∧
          left + rank arguments i < Parameter.reach items := by
    simp only [place?, hargument, Option.bind_some, hpacked, hkeyword, Option.ite_none_right_eq_some,
      Option.some.injEq]
    constructor
    · rintro ⟨hreach, heq⟩
      exact ⟨heq, heq ▸ hreach⟩
    · rintro ⟨heq, hreach⟩
      exact ⟨heq ▸ hreach, heq⟩
  simp only [hplace]
  constructor
  · intro h
    have hall : ∀ other ∈ arguments.take i, other.unpacked = false := by
      by_contra hsome
      push Not at hsome
      have hmany := le_valuesBefore (by simpa using hsome) (left + rank arguments i + 1)
      have hfixed := (h fun _ => left + rank arguments i + 1).1
      omega
    obtain ⟨heq, hreach⟩ := h fun _ => 0
    rw [valuesBefore_eq_rank hall] at heq
    exact ⟨hall, by omega, hreach⟩
  · rintro ⟨hall, rfl, hreach⟩ lengths
    rw [valuesBefore_eq_rank hall]
    exact ⟨rfl, hreach⟩

/-- A type is told to be wrong just for an argument that does not fit the parameter that it is compared with,
and only if the number of arguments is right. -/
theorem mem_check_iff {table : SymbolTable} {site : Site} {diagnostic : Diagnostic} {index : Nat}
    {callee expected found : String}
    (hcause : diagnostic.cause = .semantic (.argumentTypeMismatch index callee expected found)) :
    diagnostic ∈ signature.check table site arguments ↔
      signature.arityProblem? arguments = none ∧ ∃ i j, signature.Misfits table arguments i j diagnostic := by
  cases harity : signature.arityProblem? arguments with
  | some finding =>
    rw [arityProblem?_eq, Option.ite_none_right_eq_some, Option.some.injEq] at harity
    rw [check, arityProblem?_eq, if_pos harity.1]
    simp only [List.mem_singleton, reduceCtorEq, false_and, iff_false]
    rintro rfl
    cases hcause
  | none =>
    simp only [check, harity, typeProblems_eq, List.mem_filterMap, List.mem_range, problemAt_eq_some,
      true_and]
    constructor
    · rintro ⟨i, -, hmisfits⟩
      exact ⟨i, hmisfits⟩
    · rintro ⟨i, j, hmisfits⟩
      have hindex : i < arguments.length := by
        obtain ⟨_, _, _, _, _, htakes, -⟩ := hmisfits
        exact (List.getElem?_eq_some_iff.mp (takes_iff.mp htakes).1).1
      exact ⟨i, hindex, j, hmisfits⟩

private theorem compared_places (h : signature? isMethod name parameters returns = some signature)
    {parameter : ParameterSpec} (htakes : signature.Takes arguments i j argument parameter) :
    let items := parametersOf parameters
    let left := Parameter.leftOut isMethod items
    (Parameter.named items)[left + j]?.bind Parameter.spec? = some parameter ∧
      ((∀ lengths, place? isMethod items lengths arguments i = some (left + j)) ↔
        if argument.keyword.isSome then Parameter.ofReceiver isMethod items ≤ left + j
        else (∀ other ∈ arguments.take i, other.unpacked = false) ∧ left = isMethod.toNat ∧
          left + j < Parameter.reach items) := by
  intro items left
  obtain (⟨keyword, hargument, hparameter, hpacked, hkeyword, hname, hfirst⟩ |
    ⟨hargument, hparameter, hpacked, hkeyword, rfl⟩) := htakes
  · refine ⟨(Parameter.getElem?_signature? h j).symm.trans hparameter, ?_⟩
    simp only [hkeyword, Option.isSome_some, if_true, items, left,
      place?_keyword h hargument hpacked hkeyword hparameter hname hfirst, forall_const]
  · refine ⟨(Parameter.getElem?_signature? h _).symm.trans hparameter, ?_⟩
    simp only [hkeyword, Option.isSome_none, Bool.false_eq_true, if_false]
    apply place?_positional hargument hpacked hkeyword

/-- What a check tells of types, and whether it is bound to be right. A type is told to be wrong just for an
argument that does not fit the parameter that it is compared with, if the number of arguments is right. The
call binds the argument to this parameter, however many values the unpacked arguments have, just in these
cases: if it has a keyword, no receiver is bound to the parameter; if it has none, nothing is unpacked
before it, the signature leaves out a parameter if a receiver is passed, and no starred parameter stands
before the one that it is compared with. So all is bound as it is compared in a call that unpacks nothing, of a
definition without starred parameters, if the signature leaves out the receiver that is passed. -/
theorem mismatch_placed (h : signature? isMethod name parameters returns = some signature)
    (table : SymbolTable) (site : Site) (arguments : List CallArgument) :
    let items := parametersOf parameters
    let left := Parameter.leftOut isMethod items
    (∀ diagnostic index callee expected found,
      diagnostic.cause = .semantic (.argumentTypeMismatch index callee expected found) →
        (diagnostic ∈ signature.check table site arguments ↔
          signature.arityProblem? arguments = none ∧
            ∃ i j, signature.Misfits table arguments i j diagnostic)) ∧
    (∀ i j argument parameter, signature.Takes arguments i j argument parameter →
      (Parameter.named items)[left + j]?.bind Parameter.spec? = some parameter ∧
      ((∀ lengths, place? isMethod items lengths arguments i = some (left + j)) ↔
        if argument.keyword.isSome then Parameter.ofReceiver isMethod items ≤ left + j
        else (∀ other ∈ arguments.take i, other.unpacked = false) ∧ left = isMethod.toNat ∧
          left + j < Parameter.reach items)) ∧
    ((∀ parameter ∈ items, parameter.variadic = false) →
      (∀ argument ∈ arguments, argument.unpacked = false) → left = isMethod.toNat →
        ∀ i j argument parameter, signature.Takes arguments i j argument parameter →
          ∀ lengths, place? isMethod items lengths arguments i = some (left + j)) := by
  intro items left
  refine ⟨fun diagnostic index callee expected found hcause => mem_check_iff hcause,
    fun i j argument parameter htakes => compared_places h htakes, ?_⟩
  intro hstars hpacked hleft i j argument parameter htakes
  obtain ⟨hparameter, hplace⟩ := compared_places h htakes
  apply hplace.mpr
  split
  · calc Parameter.ofReceiver isMethod items ≤ isMethod.toNat := Nat.min_le_left _ _
      _ = left := hleft.symm
      _ ≤ left + j := Nat.le_add_right _ _
  · obtain ⟨own, hown, -⟩ := Option.bind_eq_some_iff.mp hparameter
    refine ⟨fun other hother => hpacked other (List.mem_of_mem_take hother), hleft, ?_⟩
    rw [Parameter.reach_of_unstarred hstars]
    exact (List.getElem?_eq_some_iff.mp hown).1

/-- The first value of `f("a", k=1)` is compared with the last parameter of `def f(*args, k: int)`, and the
call does not bind it to that one. -/
theorem mismatch_placed_starred :
    let leaf (text : String) : Leaf := ⟨.name, text, ⟨0, 1⟩⟩
    let extent : Extent := ⟨⟨0, 1⟩, none, 1⟩
    let part (text : String) : Option Name := some ⟨extent, some (leaf text)⟩
    let hint : Holder := ⟨extent, some (.name ⟨extent, some (leaf "int")⟩)⟩
    let parameters : Option Parameters :=
      some ⟨extent, [⟨extent, part "args", none, none, true⟩, ⟨extent, part "k", hint, none, false⟩]⟩
    let site : Site := ⟨"f", ⟨0, 1⟩, ⟨0, 0, 1⟩⟩
    let arguments : List CallArgument :=
      [⟨some (.primitive .str), site, none, false⟩, ⟨some (.primitive .int), site, some "k", false⟩]
    ∃ signature, signature? false (part "f") parameters none = some signature ∧
      signature.check .empty site arguments =
        [.ofFinding (.argumentTypeMismatch 1 "f" "int" "str") site] ∧
      ((Parameter.named (parametersOf parameters))[0]?).bind Parameter.text = some "k" ∧
      ¬∀ lengths, place? false (parametersOf parameters) lengths arguments 0 = some 0 := by
  intro leaf extent part hint parameters site arguments
  have hsignature : signature? false (part "f") parameters none =
      some ⟨"f", [⟨"k", some "int", false⟩], none, true⟩ := rfl
  obtain ⟨-, hplaced, -⟩ := mismatch_placed hsignature .empty site arguments
  have hplace := (hplaced 0 0 _ _ (.placed rfl rfl rfl rfl rfl)).2
  refine ⟨_, hsignature, rfl, rfl, fun hall => ?_⟩
  exact absurd (hplace.mp hall).2.2 (by decide)

end

end Signature

end QuantumScript
