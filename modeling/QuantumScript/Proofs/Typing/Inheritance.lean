import QuantumScript.Declaration
/-!
# Inheritance

The members of a class are the functions of its body, in their order, and after them what the bases
add. The first member of a name answers for it. So a member that a class has of its own hides those of
the bases, and of the bases the leftmost one that has the member passes it on.
-/

namespace QuantumScript

namespace ClassType

/-- The class has come to have more members, of names that are all new and all different. -/
structure Gains (type : ClassType) (added : List Signature) (later : ClassType) : Prop where
  members : later.members = type.members ++ added
  nodup : (added.map Signature.name).Nodup
  fresh : ∀ signature ∈ added, type.member? signature.name = none

theorem member?_eq_none {type : ClassType} {name : String} :
    type.member? name = none ↔ ∀ signature ∈ type.members, signature.name ≠ name := by
  simp [member?]

namespace Gains

variable {type later last : ClassType} {added more : List Signature}

theorem refl (type : ClassType) : type.Gains [] type := ⟨(List.append_nil _).symm, List.nodup_nil, nofun⟩

theorem trans (h : type.Gains added later) (hmore : later.Gains more last) :
    type.Gains (added ++ more) last := by
  have hnew : ∀ signature ∈ more, ∀ other ∈ type.members ++ added, other.name ≠ signature.name := by
    intro signature hmem
    rw [← h.members]
    exact member?_eq_none.mp (hmore.fresh signature hmem)
  refine ⟨?_, ?_, List.forall_mem_append.mpr ⟨h.fresh, fun signature hmem => ?_⟩⟩
  · rw [hmore.members, h.members, List.append_assoc]
  · rw [List.map_append]
    refine List.nodup_append.mpr ⟨h.nodup, hmore.nodup, ?_⟩
    intro name hname other hother heq
    obtain ⟨own, hown, rfl⟩ := List.mem_map.mp hname
    obtain ⟨signature, hmem, rfl⟩ := List.mem_map.mp hother
    exact hnew signature hmem own (List.mem_append_right _ hown) heq
  · exact member?_eq_none.mpr fun other hother => hnew signature hmem other (List.mem_append_left _ hother)

theorem addMember (type : ClassType) (signature : Signature) :
    ∃ added, type.Gains added (type.addMember signature) := by
  unfold ClassType.addMember
  split
  · exact ⟨[], refl type⟩
  · rename_i hnone
    refine ⟨[signature], rfl, List.pairwise_singleton _ _, List.forall_mem_singleton.mpr ?_⟩
    exact Option.not_isSome_iff_eq_none.mp hnone

theorem foldl {α : Type} {step : ClassType → α → ClassType}
    (hstep : ∀ (type : ClassType) item, ∃ added, type.Gains added (step type item)) (type : ClassType)
    (items : List α) : ∃ added, type.Gains added (items.foldl step type) := by
  induction items generalizing type with
  | nil => exact ⟨[], refl type⟩
  | cons item rest ih =>
    obtain ⟨added, hadded⟩ := hstep type item
    obtain ⟨more, hmore⟩ := ih (step type item)
    exact ⟨added ++ more, hadded.trans hmore⟩

private theorem member?_of_mem (h : type.Gains added later) {signature : Signature} (hmem : signature ∈ added) :
    later.member? signature.name = some signature := by
  obtain ⟨before, after, rfl⟩ := List.append_of_mem hmem
  have hfresh : type.members.find? (fun other => decide (other.name = signature.name)) = none :=
    h.fresh signature hmem
  have hbefore : before.find? (fun other => decide (other.name = signature.name)) = none := by
    have hnodup := h.nodup
    rw [List.map_append, List.map_cons] at hnodup
    refine List.find?_eq_none.mpr fun other hother => ?_
    rw [decide_eq_true_eq]
    exact (List.nodup_append.mp hnodup).2.2 _ (List.mem_map_of_mem hother) _ List.mem_cons_self
  rw [member?, h.members, List.find?_append, hfresh, Option.none_or, List.find?_append, hbefore,
    Option.none_or]
  exact List.find?_cons_of_pos (decide_eq_true rfl)

end Gains

private theorem gains_inherit (type : ClassType) (bases : List SymbolType) :
    ∃ added, type.Gains added (type.inherit bases) :=
  Gains.foldl (fun type (base : ClassType) => Gains.foldl Gains.addMember type base.members) type _

private theorem member?_addMember (type : ClassType) (signature : Signature) (name : String) :
    (type.addMember signature).member? name = (type.member? name).or ([signature].find? (·.name = name)) := by
  unfold addMember
  split
  · rename_i hsome
    by_cases hname : signature.name = name
    · subst hname
      rw [Option.or_of_isSome hsome]
    · rw [List.find?_cons_of_neg (by simpa using hname), List.find?_nil, Option.or_none]
  · exact List.find?_append

private theorem member?_foldl_addMember (members : List Signature) (type : ClassType) (name : String) :
    (members.foldl addMember type).member? name = (type.member? name).or (members.find? (·.name = name)) := by
  induction members generalizing type with
  | nil => exact (Option.or_none).symm
  | cons first rest ih =>
    rw [List.foldl_cons, ih, member?_addMember, Option.or_assoc, ← List.find?_append, List.singleton_append]

/-- The class itself answers for a name before its bases do, and of these the leftmost that can. -/
theorem member?_inherit (type : ClassType) (bases : List SymbolType) (name : String) :
    (type.inherit bases).member? name = (type.member? name).or
      ((bases.filterMap SymbolType.class?).findSome? fun base => base.member? name) := by
  unfold inherit
  induction bases.filterMap SymbolType.class? generalizing type with
  | nil => exact (Option.or_none).symm
  | cons base rest ih =>
    rw [List.foldl_cons, ih, member?_foldl_addMember, Option.or_assoc, List.findSome?_cons]
    congr 1
    change (base.member? name).or _ = _
    cases base.member? name <;> rfl

end ClassType

/-- Method resolution. A definition with a name declares a class. It has the functions of the body as
members, in their order and whatever the bases are, and behind them members of the bases, each of a name
that is new. A name means the first function of this name in the body, else the member of the leftmost
base class that has one. That is the last function of this name if the first and the last one have the
same signature, and only then. -/
theorem method_resolution {part : Option Ast.Name} {name : String}
    (hname : part.bind Ast.Name.text = some name) (body : Option Ast.Suite) (bases : List SymbolType) :
    ∃ declared, Ast.classType? part body = some declared ∧
      let type := declared.inherit bases
      let own := (Ast.statementsOf body).filterMap Ast.Statement.method?
      let passed method := (bases.filterMap SymbolType.class?).findSome? fun base => base.member? method
      type.name = name ∧
      (∃ added, type.members = own ++ added ∧ (added.map Signature.name).Nodup ∧
        ∀ signature ∈ added, signature.name ∉ own.map Signature.name ∧
          passed signature.name = some signature) ∧
      ∀ method,
        let named := own.filter fun signature => signature.name = method
        type.member? method = named.head?.or (passed method) ∧
          (type.member? method = named.getLast?.or (passed method) ↔ named.head? = named.getLast?) := by
  let declared : ClassType := ⟨name, (Ast.statementsOf body).filterMap Ast.Statement.method?⟩
  refine ⟨declared, by rw [Ast.classType?, hname]; rfl, ?_⟩
  intro type own passed
  have hmember (method : String) : type.member? method = (declared.member? method).or (passed method) :=
    declared.member?_inherit bases method
  obtain ⟨added, hgains⟩ := declared.gains_inherit bases
  refine ⟨declared.name_inherit bases, ⟨added, hgains.members, hgains.nodup, fun signature hmem => ?_⟩, ?_⟩
  · have hfresh := hgains.fresh signature hmem
    constructor
    · intro hown
      obtain ⟨other, hother, heq⟩ := List.mem_map.mp hown
      exact ClassType.member?_eq_none.mp hfresh other hother heq
    · rw [← hgains.member?_of_mem hmem, hmember, hfresh, Option.none_or]
  · intro method named
    have hfirst : declared.member? method = named.head? := (List.head?_filter ..).symm
    refine ⟨by rw [hmember, hfirst], ?_⟩
    rw [hmember, hfirst]
    refine ⟨fun heq => ?_, fun heq => by rw [heq]⟩
    -- There is a last function of the name if and only if there is a first one.
    cases hnamed : named with
    | nil => rfl
    | cons first rest =>
      rw [hnamed, List.getLast?_cons, List.head?_cons, Option.some_or, Option.some_or] at heq
      rw [List.getLast?_cons, List.head?_cons, heq]

/-- Of two functions `m` in the body of a class the first one answers for the name, also where a base
has a member `m`. A member that the body does not define comes from the base. -/
theorem method_resolution_redefined :
    let leaf (text : String) : Ast.Leaf := ⟨.name, text, ⟨0, 1⟩⟩
    let extent : Ast.Extent := ⟨⟨0, 1⟩, none, 1⟩
    let part (text : String) : Option Ast.Name := some ⟨extent, some (leaf text)⟩
    let method (parameters : List Ast.Parameter) : Ast.Statement :=
      .function extent [] (part "m") (some ⟨extent, parameters⟩) none none
    let body : Option Ast.Suite :=
      some ⟨extent, [method [], method [⟨extent, part "n", none, none, false⟩]]⟩
    let bases : List SymbolType := [.any, .classType ⟨"B", [⟨"m", [], none, true⟩, .named "k"]⟩]
    (part "A").bind Ast.Name.text = some "A" ∧
      ∃ declared, Ast.classType? (part "A") body = some declared ∧
        (declared.inherit bases).member? "m" = some (.named "m") ∧
        (declared.inherit bases).member? "k" = some (.named "k") := by
  intro leaf extent part method body bases
  have hname : (part "A").bind Ast.Name.text = some "A" := rfl
  obtain ⟨declared, hdeclared, _, _, hmembers⟩ := method_resolution hname body bases
  exact ⟨hname, declared, hdeclared, (hmembers "m").1, (hmembers "k").1⟩

end QuantumScript
