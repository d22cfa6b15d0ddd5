import Mathlib
import QuantumScript.Proofs.Mentions.Roles
import QuantumScript.Proofs.Parsing.Complete
/-!
# Coverage of names

A node picks its parts by what they are, by their number and by the marks between them. If its children make
the shape of its kind then it picks each part that may hold a name once: no name in it is left out, and none
is taken twice.
-/

namespace QuantumScript

open Syntax

namespace Syntax.Shape

/-- So many pieces of some sort are at most in what makes the shape, if their number is bounded. -/
def most (p : Piece → Bool) : Shape → Option Nat
  | .empty => some 0
  | .one own => some (if own.any p then 1 else 0)
  | .seq first second => do
    let front ← first.most p
    let rest ← second.most p
    some (front + rest)
  | .either first second => do
    let one ← first.most p
    let other ← second.most p
    some (max one other)
  | .many round => if round.most p = some 0 then some 0 else none

private theorem Fits.le_most {shape : Shape} {pieces : List Piece} (h : shape.Fits pieces) {p : Piece → Bool}
    {bound : Nat} (hbound : shape.most p = some bound) : pieces.countP p ≤ bound := by
  induction shape generalizing pieces bound with
  | empty =>
    cases h
    exact Nat.zero_le _
  | one own =>
    obtain ⟨piece, hown, rfl⟩ := h
    cases hbound
    rw [List.countP_singleton]
    split
    · rename_i hpiece
      rw [if_pos (List.any_eq_true.mpr ⟨piece, hown, hpiece⟩)]
    · exact Nat.zero_le _
  | seq first second ihfirst ihsecond =>
    obtain ⟨front, rest, rfl, hfront, hrest⟩ := h
    obtain ⟨early, hearly, hlater⟩ := Option.bind_eq_some_iff.mp hbound
    obtain ⟨late, hlate, hsum⟩ := Option.bind_eq_some_iff.mp hlater
    cases hsum
    rw [List.countP_append]
    exact Nat.add_le_add (ihfirst hfront hearly) (ihsecond hrest hlate)
  | either first second ihfirst ihsecond =>
    obtain ⟨one, hone, hlater⟩ := Option.bind_eq_some_iff.mp hbound
    obtain ⟨other, hother, hmax⟩ := Option.bind_eq_some_iff.mp hlater
    cases hmax
    rcases h with hfirst | hsecond
    · exact Nat.le_trans (ihfirst hfirst hone) (Nat.le_max_left _ _)
    · exact Nat.le_trans (ihsecond hsecond hother) (Nat.le_max_right _ _)
  | many round ih =>
    rw [most] at hbound
    split at hbound <;> cases hbound
    obtain ⟨rounds, rfl, hrounds⟩ := h
    rw [List.countP_flatten]
    refine Nat.le_of_eq (List.sum_eq_zero fun count hcount => ?_)
    obtain ⟨front, hfront, rfl⟩ := List.mem_map.mp hcount
    exact Nat.le_zero.mp (ih (hrounds front hfront) ‹_›)

end Syntax.Shape

namespace Ast

namespace Mention

/-- How often a token is mentioned, whatever its roles. -/
def times (leaf : Leaf) (mentions : List Mention) : Nat := mentions.countP fun mention => mention.leaf = leaf

variable (leaf : Leaf)

@[simp] theorem times_nil : times leaf [] = 0 := rfl

@[simp] theorem times_cons (mention : Mention) (mentions : List Mention) :
    times leaf (mention :: mentions) = (if mention.leaf = leaf then 1 else 0) + times leaf mentions := by
  rw [times, List.countP_cons, Nat.add_comm]
  simp only [decide_eq_true_eq, times]

@[simp] theorem times_append (mentions more : List Mention) :
    times leaf (mentions ++ more) = times leaf mentions + times leaf more := List.countP_append

private theorem times_flatMap {α : Type} (f : α → List Mention) (items : List α) :
    times leaf (items.flatMap f) = (items.map fun item => times leaf (f item)).sum := List.countP_flatMap

end Mention

open Mention

section Roles

variable (leaf : Leaf)

private theorem times_name (role given : Role) (name : Name) :
    Mention.times leaf (name.mentions role) = Mention.times leaf (name.mentions given) := by
  rw [Name.mentions, Name.mentions]
  cases name.ident <;> rfl

namespace Expr

private theorem mentions_chain (role : Role) {extent : Extent} {atom : Expr} {trailers : List Trailer}
    (h : ∀ part, atom ≠ .name part) : mentions role (.chain extent (some atom) trailers) =
      mentions role.inside atom ++ trailerMentions role.inside trailers := by
  rw [mentions]
  exact h

mutual

private theorem times_mentions (role given : Role) (e : Expr) :
    Mention.times leaf (e.mentions role) = Mention.times leaf (e.mentions given) := by
  match e with
  | .name part =>
    rw [mentions, mentions]
    exact times_name leaf role given part
  | .literal _ _ | .chain _ none _ | .parenthesized _ none => rw [mentions, mentions]
  | .chain _ (some atom) trailers =>
    have hatom := times_mentions role.inside given.inside atom
    have htrailers := times_trailers role.inside given.inside trailers
    cases atom with
    | name part =>
      rw [mentions, mentions]
      cases part.ident with
      | none => rfl
      | some own => simp only [times_cons, htrailers]
    | _ =>
      rw [mentions_chain role (by simp), mentions_chain given (by simp), times_append, times_append, hatom,
        htrailers]
  | .binary _ _ left right =>
    rw [mentions, mentions, times_append, times_append, times_optional _ given.inside left,
      times_optional _ given.inside right]
  | .unary _ _ value | .yield _ value | .lambda _ none value =>
    rw [mentions, mentions]
    exact times_optional _ _ value
  | .parenthesized _ (some inner) =>
    rw [mentions, mentions]
    exact times_mentions role given inner
  | .list _ items | .expressionList _ items | .dictionary _ items | .conditional _ items =>
    rw [mentions, mentions]
    exact times_exprs _ _ items
  | .lambda _ (some ⟨_, items⟩) body =>
    rw [mentions, mentions, times_append, times_append, times_parameters _ given.inside items,
      times_optional _ given.inside body]
  | .comprehension _ elements clauses _ _ =>
    rw [mentions, mentions, times_append, times_append, times_clauses _ given.inside clauses,
      times_exprs _ given.inside elements]

private theorem times_optional (role given : Role) (e : Option Expr) :
    Mention.times leaf (optionalMentions role e) = Mention.times leaf (optionalMentions given e) := by
  match e with
  | none => rfl
  | some e => exact times_mentions role given e

private theorem times_exprs (role given : Role) (items : List Expr) :
    Mention.times leaf (exprMentions role items) = Mention.times leaf (exprMentions given items) := by
  match items with
  | [] => rfl
  | e :: rest =>
    rw [exprMentions, exprMentions, times_append, times_append, times_mentions role given e,
      times_exprs role given rest]

private theorem times_trailers (role given : Role) (trailers : List Trailer) :
    Mention.times leaf (trailerMentions role trailers) =
      Mention.times leaf (trailerMentions given trailers) := by
  match trailers with
  | [] => rfl
  | .attribute _ part :: rest =>
    rw [trailerMentions, trailerMentions, times_append, times_append, times_trailers role given rest]
  | .arguments _ items :: rest =>
    rw [trailerMentions, trailerMentions, times_append, times_append, times_arguments role given items,
      times_trailers role given rest]
  | .subscripts _ items :: rest =>
    rw [trailerMentions, trailerMentions, times_append, times_append, times_subscripts role given items,
      times_trailers role given rest]

private theorem times_arguments (role given : Role) (items : List Argument) :
    Mention.times leaf (argumentMentions role items) = Mention.times leaf (argumentMentions given items) := by
  match items with
  | [] => rfl
  | ⟨_, keyword, _, value⟩ :: rest =>
    simp only [argumentMentions, times_append, times_optional role given value,
      times_arguments role given rest]

private theorem times_subscripts (role given : Role) (items : List Subscript) :
    Mention.times leaf (subscriptMentions role items) =
      Mention.times leaf (subscriptMentions given items) := by
  match items with
  | [] => rfl
  | ⟨_, parts⟩ :: rest =>
    rw [subscriptMentions, subscriptMentions, times_append, times_append, times_exprs role given parts,
      times_subscripts role given rest]

private theorem times_parameters (role given : Role) (items : List Parameter) :
    Mention.times leaf (parameterMentions role items) =
      Mention.times leaf (parameterMentions given items) := by
  match items with
  | [] => rfl
  | ⟨_, part, hint, default, _⟩ :: rest =>
    simp only [parameterMentions, times_append, times_holder role given default,
      times_parameters role given rest]

private theorem times_holder (role given : Role) (holder : Option Holder) :
    Mention.times leaf (holderMentions role holder) = Mention.times leaf (holderMentions given holder) := by
  match holder with
  | none => rfl
  | some ⟨_, value⟩ => exact times_optional role given value

private theorem times_clauses (role given : Role) (clauses : List Clause) :
    Mention.times leaf (clauseMentions role clauses) = Mention.times leaf (clauseMentions given clauses) := by
  match clauses with
  | [] => rfl
  | .forClause _ target iterable :: rest =>
    simp only [clauseMentions, times_append, times_optional role given iterable,
      times_optional role.target given.target target, times_clauses role given rest]
  | .ifClause _ condition :: rest =>
    simp only [clauseMentions, times_append, times_optional role given condition,
      times_clauses role given rest]

end

end Expr

end Roles

/-- What a node may have places for. Names stand where other expressions do, so they have no slot of their
own. -/
inductive Slot
  | expr
  | trailer
  | clause
  | argument
  | subscript
  | parameters
  | parameter
  | holder (kind : NodeKind)
  | dottedName
  | importAlias
  | withItem
  | suite
  | branch
  | handler
  | block (kind : NodeKind)
  | statement
  deriving DecidableEq

/-- The slot for a part of a kind. -/
def Slot.ofKind? : NodeKind → Option Slot
  | .arguments | .subscripts | .attribute => some .trailer
  | .forClause | .ifClause => some .clause
  | .argument => some .argument
  | .subscript => some .subscript
  | .parameters => some .parameters
  | .parameter => some .parameter
  | .typeHint => some (.holder .typeHint)
  | .defaultValue => some (.holder .defaultValue)
  | .returnType => some (.holder .returnType)
  | .decorator => some (.holder .decorator)
  | .dottedName => some .dottedName
  | .importAlias => some .importAlias
  | .withItem => some .withItem
  | .suite => some .suite
  | .elifClause => some .branch
  | .exceptClause => some .handler
  | .elseClause => some (.block .elseClause)
  | .finallyClause => some (.block .finallyClause)
  | _ => none

/-- The slot for a piece. Words and nodes that are part of no other have none. -/
def Slot.ofPiece? : Piece → Option Slot
  | .name | .compound => some .expr
  | .statement => some .statement
  | .part kind => Slot.ofKind? kind
  | .word _ | .stray => none

/-- How many parts the shape has room for in a slot, if their number is bounded. -/
def Slot.room (slot : Slot) (shape : Shape) : Option Nat :=
  shape.most fun piece => Slot.ofPiece? piece = some slot

/-- The shape has places for nothing but words and parts that fill one of the slots. -/
def Slot.suffice (slots : List Slot) (shape : Shape) : Bool :=
  shape.pieces.all fun piece => piece != .stray && (Slot.ofPiece? piece).all slots.contains

namespace Part

/-- The mentions in what a tree was read as. -/
def mentions : Part → List Mention
  | .expr part => part.mentions .used
  | .trailer part => Expr.trailerMentions .used [part]
  | .clause part => Expr.clauseMentions .used [part]
  | .argument part => Expr.argumentMentions .used [part]
  | .subscript part => Expr.subscriptMentions .used [part]
  | .parameters part => Expr.parameterMentions .used part.items
  | .parameter part => Expr.parameterMentions .used [part]
  | .holder _ part => Expr.holderMentions .used (some part)
  | .dottedName part => part.names.flatMap (Name.mentions .other)
  | .importAlias part => part.mentions
  | .withItem part => part.mentions
  | .suite part => suiteMentions (some part)
  | .branch part => branchMentions [part]
  | .handler part => handlerMentions [part]
  | .block _ part => blockMentions (some part)
  | .statement part => part.mentions
  | .script part => part.mentions
  | .leaf _ | .error _ => []

/-- How often the token is mentioned in what a tree was read as. -/
def times (leaf : Leaf) (part : Part) : Nat := Mention.times leaf part.mentions

/-- The slot that the part fills. -/
def slot? (part : Part) : Option Slot := part.piece?.bind Slot.ofPiece?

@[simp] theorem slot?_leaf (part : Leaf) : (Part.leaf part).slot? = none := by
  rw [slot?, piece?, TokenKind.piece?]
  split <;> rfl

@[simp] theorem slot?_expr (part : Expr) : (Part.expr part).slot? = some .expr := by
  cases part <;> rfl

@[simp] theorem slot?_trailer (part : Trailer) : (Part.trailer part).slot? = some .trailer := by
  cases part <;> rfl

@[simp] theorem slot?_clause (part : Clause) : (Part.clause part).slot? = some .clause := by
  cases part <;> rfl

@[simp] theorem slot?_holder (kind : NodeKind) (part : Holder) : (Part.holder kind part).slot? =
    if [.typeHint, .defaultValue, .returnType, .decorator].contains kind then some (.holder kind)
    else none := by
  cases kind <;> rfl

@[simp] theorem slot?_block (kind : NodeKind) (part : Block) : (Part.block kind part).slot? =
    if [.elseClause, .finallyClause].contains kind then some (.block kind) else none := by
  cases kind <;> rfl

/-- The parts that fill a slot are those that a reader picks, and are what it picks. -/
structure Picks {α : Type} (slot : Slot) (pick : Part → Option α) (part : α → Part) : Prop where
  isSome (own : Part) : (pick own).isSome = decide (own.slot? = some slot)
  eq {own : Part} {value : α} : pick own = some value → own = part value

private theorem picks_expr : Picks .expr expr? .expr where
  isSome own := by cases own <;> first | rfl | simp [expr?]
  eq {own _} h := by cases own <;> cases h; rfl

private theorem picks_trailer : Picks .trailer trailer? .trailer where
  isSome own := by cases own <;> first | rfl | simp [trailer?]
  eq {own _} h := by cases own <;> cases h; rfl

private theorem picks_clause : Picks .clause clause? .clause where
  isSome own := by cases own <;> first | rfl | simp [clause?]
  eq {own _} h := by cases own <;> cases h; rfl

private theorem picks_argument : Picks .argument argument? .argument where
  isSome own := by cases own <;> first | rfl | simp [argument?]
  eq {own _} h := by cases own <;> cases h; rfl

private theorem picks_subscript : Picks .subscript subscript? .subscript where
  isSome own := by cases own <;> first | rfl | simp [subscript?]
  eq {own _} h := by cases own <;> cases h; rfl

private theorem picks_parameters : Picks .parameters parameters? .parameters where
  isSome own := by cases own <;> first | rfl | simp [parameters?]
  eq {own _} h := by cases own <;> cases h; rfl

private theorem picks_parameter : Picks .parameter parameter? .parameter where
  isSome own := by cases own <;> first | rfl | simp [parameter?]
  eq {own _} h := by cases own <;> cases h; rfl

private theorem picks_dottedName : Picks .dottedName dottedName? .dottedName where
  isSome own := by cases own <;> first | rfl | simp [dottedName?]
  eq {own _} h := by cases own <;> cases h; rfl

private theorem picks_importAlias : Picks .importAlias importAlias? .importAlias where
  isSome own := by cases own <;> first | rfl | simp [importAlias?]
  eq {own _} h := by cases own <;> cases h; rfl

private theorem picks_withItem : Picks .withItem withItem? .withItem where
  isSome own := by cases own <;> first | rfl | simp [withItem?]
  eq {own _} h := by cases own <;> cases h; rfl

private theorem picks_suite : Picks .suite suite? .suite where
  isSome own := by cases own <;> first | rfl | simp [suite?]
  eq {own _} h := by cases own <;> cases h; rfl

private theorem picks_branch : Picks .branch branch? .branch where
  isSome own := by cases own <;> first | rfl | simp [branch?]
  eq {own _} h := by cases own <;> cases h; rfl

private theorem picks_handler : Picks .handler handler? .handler where
  isSome own := by cases own <;> first | rfl | simp [handler?]
  eq {own _} h := by cases own <;> cases h; rfl

private theorem picks_statement : Picks .statement statement? .statement where
  isSome own := by cases own <;> first | rfl | simp [statement?]
  eq {own _} h := by cases own <;> cases h; rfl

private theorem picks_holder {kind : NodeKind}
    (hkind : [.typeHint, .defaultValue, .returnType, .decorator].contains kind = true) :
    Picks (.holder kind) (holder? kind) (.holder kind) where
  isSome own := by
    cases own with
    | holder other part =>
      rw [slot?_holder, holder?]
      by_cases hsame : other = kind
      · subst hsame
        simp only [if_true, hkind]
        simp
      · rw [if_neg hsame]
        split <;> simp [hsame]
    | _ => first | rfl | simp [holder?]
  eq {own value} h := by
    cases own with
    | holder other part =>
      rw [holder?] at h
      split at h <;> cases h
      subst ‹other = kind›
      rfl
    | _ => cases h

private theorem picks_block {kind : NodeKind} (hkind : [.elseClause, .finallyClause].contains kind = true) :
    Picks (.block kind) (block? kind) (.block kind) where
  isSome own := by
    cases own with
    | block other part =>
      rw [slot?_block, block?]
      by_cases hsame : other = kind
      · subst hsame
        simp only [if_true, hkind]
        simp
      · rw [if_neg hsame]
        split <;> simp [hsame]
    | _ => first | rfl | simp [block?]
  eq {own value} h := by
    cases own with
    | block other part =>
      rw [block?] at h
      split at h <;> cases h
      subst ‹other = kind›
      rfl
    | _ => cases h

section Sums

variable (leaf : Leaf)

/-- How often the token is mentioned in the parts that fill a slot. -/
def timesIn (slot : Slot) (parts : List Part) : Nat :=
  ((parts.filter fun part => part.slot? = some slot).map (times leaf)).sum

theorem timesIn_cons (slot : Slot) (part : Part) (parts : List Part) :
    timesIn leaf slot (part :: parts) =
      (if part.slot? = some slot then part.times leaf else 0) + timesIn leaf slot parts := by
  unfold timesIn
  by_cases hslot : part.slot? = some slot
  · rw [List.filter_cons_of_pos (by simp [hslot]), List.map_cons, List.sum_cons, if_pos hslot]
  · rw [List.filter_cons_of_neg (by simp [hslot]), if_neg hslot, Nat.zero_add]

private theorem times_of_no_slot {part : Part} (hslot : part.slot? = none)
    (hstray : part.piece? ≠ some .stray) :
    part.times leaf = 0 := by
  cases part with
  | leaf part => rfl
  | error extent => rfl
  | script part => exact absurd rfl hstray
  | holder kind part =>
    rw [slot?_holder] at hslot
    split at hslot
    · cases hslot
    · exact absurd (by rw [piece?, if_neg ‹_›]) hstray
  | block kind part =>
    rw [slot?_block] at hslot
    split at hslot
    · cases hslot
    · exact absurd (by rw [piece?, if_neg ‹_›]) hstray
  | expr part | trailer part | clause part => simp at hslot
  | _ => cases hslot

private theorem times_eq_sum {parts : List Part} {shape : Shape} (hfits : shape.Fits (parts.filterMap piece?))
    (slots : List Slot) (hnodup : slots.Nodup) (hslots : Slot.suffice slots shape = true) :
    (parts.map (times leaf)).sum = (slots.map fun slot => timesIn leaf slot parts).sum := by
  have hparts : ∀ part ∈ parts, part.piece? ≠ some .stray ∧ ∀ slot ∈ part.slot?, slot ∈ slots := by
    intro part hmem
    cases hpiece : part.piece? with
    | none => exact ⟨nofun, fun slot hslot => by rw [slot?, hpiece] at hslot; cases hslot⟩
    | some piece =>
      have hown := hfits.mem_pieces piece (List.mem_filterMap.mpr ⟨part, hmem, hpiece⟩)
      have hboth := List.all_eq_true.mp hslots piece hown
      rw [Bool.and_eq_true, bne_iff_ne] at hboth
      refine ⟨fun h => hboth.1 (Option.some.inj h), fun slot hslot => ?_⟩
      rw [slot?, hpiece] at hslot
      rw [Option.bind_some] at hslot
      rw [Option.mem_def.mp hslot] at hboth
      exact List.contains_iff_mem.mp hboth.2
  clear hfits
  induction parts with
  | nil => simp [timesIn]
  | cons part parts ih =>
    obtain ⟨⟨hstray, hslot⟩, hrest⟩ := List.forall_mem_cons.mp hparts
    have hown : part.times leaf =
        (slots.map fun slot => if part.slot? = some slot then part.times leaf else 0).sum := by
      cases hsome : part.slot? with
      | none =>
        rw [times_of_no_slot leaf hsome hstray]
        simp
      | some slot =>
        rw [← List.sum_toFinset _ hnodup]
        simp [hslot slot hsome]
    simp only [List.map_cons, List.sum_cons, timesIn_cons, List.sum_map_add, ← hown, ih hrest]

private theorem times_eq_timesIn (slot : Slot) {parts : List Part} {shape : Shape}
    (hfits : shape.Fits (parts.filterMap piece?)) (hslots : Slot.suffice [slot] shape = true) :
    (parts.map (times leaf)).sum = timesIn leaf slot parts := by
  rw [times_eq_sum leaf hfits [slot] (List.nodup_singleton slot) hslots, List.map_singleton,
    List.sum_singleton]

private theorem times_eq_add (first second : Slot) {parts : List Part} {shape : Shape}
    (hfits : shape.Fits (parts.filterMap piece?)) (hne : first ≠ second)
    (hslots : Slot.suffice [first, second] shape = true) :
    (parts.map (times leaf)).sum = timesIn leaf first parts + timesIn leaf second parts := by
  rw [times_eq_sum leaf hfits [first, second] (by simp [hne]) hslots, List.map_cons, List.sum_cons,
    List.map_singleton, List.sum_singleton]

variable {leaf} {α : Type} {slot : Slot} {pick : Part → Option α} {part : α → Part}

namespace Picks

variable (h : Picks slot pick part)
include h

private theorem timesIn_eq (parts : List Part) :
    timesIn leaf slot parts = ((parts.filterMap pick).map fun value => (part value).times leaf).sum := by
  induction parts with
  | nil => rfl
  | cons own parts ih =>
    rw [timesIn_cons, ih]
    cases hpick : pick own with
    | none =>
      have hslot : ¬own.slot? = some slot := by simpa [hpick] using h.isSome own
      rw [if_neg hslot, List.filterMap_cons_none hpick, Nat.zero_add]
    | some value =>
      have hslot : own.slot? = some slot := by simpa [hpick] using h.isSome own
      rw [if_pos hslot, List.filterMap_cons_some hpick, List.map_cons, List.sum_cons, ← h.eq hpick]

theorem length_eq (parts : List Part) :
    (parts.filterMap pick).length =
      (parts.filterMap piece?).countP fun piece => Slot.ofPiece? piece = some slot := by
  induction parts with
  | nil => rfl
  | cons own parts ih =>
    have hown := h.isSome own
    rw [slot?] at hown
    rw [List.filterMap_cons, List.filterMap_cons]
    cases hpick : pick own <;> cases hpiece : own.piece? <;> rw [hpick, hpiece] at hown <;>
      simp_all

private theorem timesIn_single {parts : List Part} {shape : Shape} (hfits : shape.Fits (parts.filterMap piece?))
    (hroom : slot.room shape = some 1) :
    timesIn leaf slot parts = (parts.findSome? pick).elim 0 fun value => (part value).times leaf := by
  have hlength := hfits.le_most hroom
  rw [← h.length_eq] at hlength
  rw [h.timesIn_eq, ← List.head?_filterMap]
  match parts.filterMap pick, hlength with
  | [], _ => rfl
  | [value], _ => exact Nat.add_zero _

private theorem times_all {parts : List Part} {shape : Shape} (hfits : shape.Fits (parts.filterMap piece?))
    (hslots : Slot.suffice [slot] shape = true) : (parts.map (times leaf)).sum =
      ((parts.filterMap pick).map fun value => (part value).times leaf).sum := by
  rw [times_eq_timesIn leaf _ hfits hslots, h.timesIn_eq]

end Picks

private theorem timesIn_first {parts : List Part} {shape : Shape} (hfits : shape.Fits (parts.filterMap piece?))
    (hroom : Slot.expr.room shape = some 1) :
    timesIn leaf .expr parts = (parts.filterMap expr?).head?.elim 0 fun e => (Part.expr e).times leaf := by
  rw [picks_expr.timesIn_single hfits hroom, List.head?_filterMap]

private theorem timesIn_pair {parts : List Part} {shape : Shape} (hfits : shape.Fits (parts.filterMap piece?))
    (hroom : Slot.expr.room shape = some 2) :
    timesIn leaf .expr parts =
      ((parts.filterMap expr?).head?.elim 0 fun e => (Part.expr e).times leaf) +
        (parts.filterMap expr?)[1]?.elim 0 fun e => (Part.expr e).times leaf := by
  have hlength := hfits.le_most hroom
  rw [← picks_expr.length_eq] at hlength
  rw [picks_expr.timesIn_eq]
  match parts.filterMap expr?, hlength with
  | [], _ => rfl
  | [first], _ => rfl
  | [first, second], _ => exact congrArg _ (Nat.add_zero _)

end Sums

section Weights

variable (leaf : Leaf) (role : Role)

private theorem times_optional (e : Option Expr) :
    Mention.times leaf (Expr.optionalMentions role e) = e.elim 0 fun e => (Part.expr e).times leaf := by
  cases e with
  | none => rfl
  | some e => exact Expr.times_mentions leaf role .used e

private theorem times_exprs (items : List Expr) :
    Mention.times leaf (Expr.exprMentions role items) =
      (items.map fun e => (Part.expr e).times leaf).sum := by
  induction items with
  | nil => rfl
  | cons e rest ih =>
    rw [Expr.exprMentions, times_append, ih, List.map_cons, List.sum_cons,
      Expr.times_mentions leaf role .used]
    rfl

private theorem times_name (name : Name) :
    Mention.times leaf (name.mentions role) = (Part.expr (.name name)).times leaf := by
  rw [times, mentions, Expr.mentions]
  exact Ast.times_name leaf role .used name

private theorem times_names (name : Option Name) :
    Mention.times leaf (nameMentions role name) =
      name.elim 0 fun name => (Part.expr (.name name)).times leaf := by
  cases name with
  | none => rfl
  | some name => exact times_name leaf role name

private theorem times_flatMap_names (names : List Name) :
    Mention.times leaf (names.flatMap (Name.mentions role)) =
      (names.map fun name => (Part.expr (.name name)).times leaf).sum := by
  rw [times_flatMap]
  simp only [times_name]

private theorem times_row {α : Type} {f : List α → List Mention} (hnil : f [] = [])
    (hcons : ∀ item rest, f (item :: rest) = f [item] ++ f rest) (items : List α) :
    Mention.times leaf (f items) = (items.map fun item => Mention.times leaf (f [item])).sum := by
  induction items with
  | nil => rw [hnil]; rfl
  | cons item rest ih => rw [hcons, times_append, ih, List.map_cons, List.sum_cons]

private theorem times_trailers (trailers : List Trailer) :
    Mention.times leaf (Expr.trailerMentions role trailers) =
    (trailers.map fun trailer => (Part.trailer trailer).times leaf).sum := by
  rw [Expr.times_trailers leaf role .used]
  refine times_row leaf rfl (fun trailer rest => ?_) trailers
  cases trailer <;> simp only [Expr.trailerMentions, List.append_nil]

private theorem times_arguments (items : List Argument) :
    Mention.times leaf (Expr.argumentMentions role items) =
    (items.map fun item => (Part.argument item).times leaf).sum := by
  rw [Expr.times_arguments leaf role .used]
  refine times_row leaf rfl (fun item rest => ?_) items
  cases item
  simp only [Expr.argumentMentions, List.append_nil]

private theorem times_subscripts (items : List Subscript) :
    Mention.times leaf (Expr.subscriptMentions role items) =
    (items.map fun item => (Part.subscript item).times leaf).sum := by
  rw [Expr.times_subscripts leaf role .used]
  refine times_row leaf rfl (fun item rest => ?_) items
  cases item
  simp only [Expr.subscriptMentions, List.append_nil]

private theorem times_parameters (items : List Parameter) :
    Mention.times leaf (Expr.parameterMentions role items) =
    (items.map fun item => (Part.parameter item).times leaf).sum := by
  rw [Expr.times_parameters leaf role .used]
  refine times_row leaf rfl (fun item rest => ?_) items
  cases item
  simp only [Expr.parameterMentions, List.append_nil]

private theorem times_clauses (clauses : List Clause) : Mention.times leaf (Expr.clauseMentions role clauses) =
    (clauses.map fun clause => (Part.clause clause).times leaf).sum := by
  rw [Expr.times_clauses leaf role .used]
  refine times_row leaf rfl (fun clause rest => ?_) clauses
  cases clause <;> simp only [Expr.clauseMentions, List.append_nil]

private theorem times_holder (kind : NodeKind) (holder : Option Holder) :
    Mention.times leaf (Expr.holderMentions role holder) =
      holder.elim 0 fun holder => (Part.holder kind holder).times leaf := by
  rw [Expr.times_holder leaf role .used]
  cases holder <;> rfl

private theorem times_decorators (items : List Holder) : Mention.times leaf (decoratorMentions items) =
    (items.map fun item => (Part.holder .decorator item).times leaf).sum := times_flatMap leaf _ items

private theorem times_target (e : Expr) :
    Mention.times leaf (Expr.targetMentions e) = (Part.expr e).times leaf := by
  cases e with
  | name _ | expressionList _ _ | list _ _ | parenthesized _ _ =>
    exact Expr.times_mentions leaf .bound .used _
  | _ => rfl

private theorem times_expressions (items : List Expr) (assigns augments : Bool) (hint : Option Holder) :
    Mention.times leaf (expressionMentions items assigns augments hint) =
      (items.map fun e => (Part.expr e).times leaf).sum := by
  unfold expressionMentions
  split
  · exact times_exprs leaf .used items
  split
  · rcases List.eq_nil_or_concat items with rfl | ⟨targets, value, rfl⟩
    · rfl
    · rw [List.concat_eq_append, List.dropLast_concat, List.getLast?_concat, times_append, times_flatMap,
        times_optional, List.map_append, List.sum_append, List.map_singleton, List.sum_singleton]
      simp only [times_target]
      rfl
  split
  · exact times_exprs leaf .declared items
  · exact times_exprs leaf .used items

private theorem times_parametersOf (own : Option Parameters) :
    Mention.times leaf (Expr.parameterMentions .used (parametersOf own)) =
      own.elim 0 fun own => (Part.parameters own).times leaf := by
  cases own <;> rfl

private theorem times_path (path : Option DottedName) :
    Mention.times leaf ((path.elim [] DottedName.names).flatMap (Name.mentions role)) =
      path.elim 0 fun path => (Part.dottedName path).times leaf := by
  rw [times_flatMap_names]
  cases path with
  | none => rfl
  | some path => exact (times_flatMap_names leaf .other path.names).symm

private theorem times_imports (items : List ImportAlias) : Mention.times leaf (importMentions items) =
    (items.map fun item => (Part.importAlias item).times leaf).sum := times_flatMap leaf _ items

private theorem times_statements (items : List Statement) : Mention.times leaf (statementMentions items) =
    (items.map fun item => (Part.statement item).times leaf).sum := by
  rw [times_row leaf rfl (fun item rest => by simp only [statementMentions, List.append_nil])]
  simp only [statementMentions, List.append_nil]
  rfl

private theorem times_suite (body : Option Suite) :
    Mention.times leaf (suiteMentions body) = body.elim 0 fun body => (Part.suite body).times leaf := by
  cases body <;> rfl

private theorem times_branches (items : List Branch) : Mention.times leaf (branchMentions items) =
    (items.map fun item => (Part.branch item).times leaf).sum :=
  times_row leaf rfl (fun item rest => by cases item; simp only [branchMentions, List.append_nil]) items

private theorem times_handlers (items : List Handler) : Mention.times leaf (handlerMentions items) =
    (items.map fun item => (Part.handler item).times leaf).sum :=
  times_row leaf rfl (fun item rest => by cases item; simp only [handlerMentions, List.append_nil]) items

private theorem times_block (kind : NodeKind) (body : Option Block) :
    Mention.times leaf (blockMentions body) = body.elim 0 fun body => (Part.block kind body).times leaf := by
  cases body <;> rfl

end Weights

section Nodes

variable {leaf : Leaf} {parts : List Part} {shape : Shape} (hfits : shape.Fits (parts.filterMap piece?))
include hfits

private theorem times_first (hslots : Slot.suffice [.expr] shape = true)
    (hroom : Slot.expr.room shape = some 1) :
    (parts.map (times leaf)).sum =
      (parts.filterMap expr?).head?.elim 0 fun e => (Part.expr e).times leaf := by
  rw [times_eq_timesIn leaf _ hfits hslots, timesIn_first hfits hroom]

private theorem exprs_eq_names (hcompound : shape.pieces.contains .compound = false) :
    parts.filterMap expr? = (parts.filterMap name?).map Expr.name := by
  rw [List.map_filterMap]
  refine List.filterMap_congr fun part hmem => ?_
  cases part with
  | expr e =>
    cases e with
    | name name => rfl
    | _ =>
      have hpiece := hfits.mem_pieces .compound (List.mem_filterMap.mpr ⟨_, hmem, rfl⟩)
      rw [← List.contains_iff_mem, hcompound] at hpiece
      cases hpiece
  | _ => rfl

private theorem timesIn_name (hcompound : shape.pieces.contains .compound = false)
    (hroom : Slot.expr.room shape = some 1) :
    timesIn leaf .expr parts =
      (parts.filterMap name?).head?.elim 0 fun name => (Part.expr (.name name)).times leaf := by
  rw [timesIn_first hfits hroom, exprs_eq_names hfits hcompound, List.head?_map, Option.elim_map]
  rfl

private theorem trailers_eq_arguments
    (hothers : [Piece.part .subscripts, .part .attribute].all fun piece => !shape.pieces.contains piece) :
    parts.filterMap trailer? =
      (parts.filterMap arguments?).map fun own => Trailer.arguments own.extent own.items := by
  rw [List.map_filterMap]
  refine List.filterMap_congr fun part hmem => ?_
  have hnot (kind : NodeKind) (hpiece : part.piece? = some (.part kind))
      (hkind : Piece.part kind ∈ [Piece.part .subscripts, .part .attribute]) : False := by
    have hown := hfits.mem_pieces _ (List.mem_filterMap.mpr ⟨part, hmem, hpiece⟩)
    have hnone := List.all_eq_true.mp hothers _ hkind
    rw [List.contains_iff_mem.mpr hown] at hnone
    cases hnone
  cases part with
  | trailer trailer =>
    cases trailer with
    | arguments extent items => rfl
    | subscripts extent items => exact (hnot .subscripts rfl (by decide)).elim
    | «attribute» extent name => exact (hnot .attribute rfl (by decide)).elim
  | _ => rfl

private theorem timesIn_bases
    (hothers : [Piece.part .subscripts, .part .attribute].all fun piece => !shape.pieces.contains piece)
    (hroom : Slot.trailer.room shape = some 1) :
    timesIn leaf .trailer parts =
      Mention.times leaf (Expr.argumentMentions .used (basesOf (parts.findSome? arguments?))) := by
  rw [picks_trailer.timesIn_single hfits hroom, ← List.head?_filterMap, trailers_eq_arguments hfits hothers,
    List.head?_map, List.head?_filterMap, Option.elim_map]
  cases parts.findSome? arguments? with
  | none => rfl
  | some own =>
    rw [Option.elim_some, Function.comp_apply, times, mentions, Expr.trailerMentions, Expr.trailerMentions,
      List.append_nil]
    rfl

end Nodes

private theorem mem_of_head?_names {parts : List Part} {name : Name}
    (h : (parts.filterMap name?).head? = some name) :
    .expr (.name name) ∈ parts := by
  obtain ⟨part, hmem, hname⟩ := List.mem_filterMap.mp (List.mem_of_head? h)
  cases part with
  | expr e =>
    cases e with
    | name own =>
      cases hname
      exact hmem
    | _ => cases hname
  | _ => cases hname

private theorem exists_text {parts : List Part} (hsome : (parts.filterMap name?).head?.isSome = true)
    (hnames : ∀ name, .expr (.name name) ∈ parts → name.ident.isSome = true) :
    ∃ name text, (parts.filterMap name?).head? = some name ∧ name.text = some text := by
  obtain ⟨name, hname⟩ := Option.isSome_iff_exists.mp hsome
  obtain ⟨own, hown⟩ := Option.isSome_iff_exists.mp (hnames name (mem_of_head?_names hname))
  exact ⟨name, own.text, hname, by rw [Name.text, hown]; rfl⟩

private theorem times_chain (leaf : Leaf) {extent : Extent} {atom : Expr} {trailers : List Trailer}
    (h : ∀ name, atom = .name name → name.ident.isSome = true) :
    Mention.times leaf (Expr.mentions .used (.chain extent (some atom) trailers)) =
      (Part.expr atom).times leaf + (trailers.map fun trailer => (Part.trailer trailer).times leaf).sum := by
  rw [← times_trailers leaf .used, times, mentions]
  cases atom with
  | name name =>
    obtain ⟨own, hown⟩ := Option.isSome_iff_exists.mp (h name rfl)
    simp [Expr.mentions, Name.mentions, hown, Role.inside]
  | _ => rw [Expr.mentions_chain .used (by simp), times_append]; rfl

section Marks

variable {parts : List Part}

private theorem hasToken_eq {kind : TokenKind} (hkind : kind.piece? = some (.word kind)) :
    hasToken kind parts = (parts.filterMap piece?).contains (.word kind) := by
  rw [Bool.eq_iff_iff, List.contains_iff_mem, List.mem_filterMap, hasToken, List.any_eq_true]
  refine exists_congr fun part => and_congr_right fun _ => ⟨fun htoken => ?_, fun hpiece => ?_⟩
  · cases part with
    | leaf own =>
      obtain rfl : own.kind = kind := of_decide_eq_true htoken
      exact hkind
    | _ => cases htoken
  · exact (Bool.and_eq_true _ _ ▸ fulfils_piece hpiece).1

@[simp] theorem isExpr_name : isExpr .name = true := rfl

@[simp] theorem isExpr_word (kind : TokenKind) : isExpr (.word kind) = false := rfl

@[simp] theorem isExpr_part (kind : NodeKind) : isExpr (.part kind) = false := rfl

private theorem isExpr_eq (piece : Piece) : isExpr piece = decide (Slot.ofPiece? piece = some .expr) := by
  cases piece with
  | part kind => cases kind <;> rfl
  | _ => rfl

private theorem ne_word_of_isExpr {piece : Piece} (h : isExpr piece = true) (kind : TokenKind) :
    .word kind ≠ piece := by
  rintro rfl
  cases h

private theorem map_piece_exprs (parts : List Part) :
    (parts.filterMap expr?).map (fun e => e.kind.piece) = (parts.filterMap piece?).filter isExpr := by
  induction parts with
  | nil => rfl
  | cons part parts ih =>
    have hown := picks_expr.isSome part
    rw [slot?] at hown
    cases hexpr : part.expr? with
    | none =>
      rw [List.filterMap_cons_none hexpr, ih]
      cases hpiece : part.piece? with
      | none => rw [List.filterMap_cons_none hpiece]
      | some piece =>
        rw [hexpr, hpiece, Option.bind_some, ← isExpr_eq] at hown
        rw [List.filterMap_cons_some hpiece, List.filter_cons_of_neg (by simp [← hown])]
    | some e =>
      have hpiece : part.piece? = some e.kind.piece := by rw [picks_expr.eq hexpr]; rfl
      rw [hexpr, hpiece, Option.bind_some, ← isExpr_eq] at hown
      rw [List.filterMap_cons_some hexpr, List.filterMap_cons_some hpiece, List.map_cons, ih,
        List.filter_cons_of_pos hown.symm]

private theorem filterMap_name_exprs (parts : List Part) :
    parts.filterMap name? = (parts.filterMap expr?).filterMap fun e => name? (.expr e) := by
  rw [List.filterMap_filterMap]
  refine List.filterMap_congr fun part _ => ?_
  cases part <;> rfl

private theorem exists_name {e : Expr} (h : e.kind.piece = .name) : ∃ name, e = .name name := by
  cases e with
  | name name => exact ⟨name, rfl⟩
  | _ => cases h

end Marks

section Choices

variable (leaf : Leaf) {parts : List Part}

private theorem times_withItem (hfits : (Shape.ofKind .withItem).Fits (parts.filterMap piece?)) :
    (parts.map (times leaf)).sum =
      Mention.times leaf (Expr.optionalMentions .used (parts.filterMap expr?).head?) +
        Mention.times leaf (Expr.optionalMentions .bound
          (if hasToken (.keyword .asWord) parts then (parts.filterMap expr?)[1]? else none)) := by
  have hsecond : (if hasToken (.keyword .asWord) parts then (parts.filterMap expr?)[1]? else none) =
      (parts.filterMap expr?)[1]? := by
    have hexprs := map_piece_exprs parts
    obtain ⟨front, rest, hpieces, ⟨first, hfirst, rfl⟩, hrest⟩ := hfits
    rw [hasToken_eq rfl, hpieces]
    rcases hrest with rfl | ⟨_, _, rfl, ⟨mark, hmark, rfl⟩, _⟩
    · have hexpr : isExpr first = true := List.contains_iff_mem.mpr hfirst
      rw [hpieces, List.append_nil, List.filter_cons_of_pos hexpr] at hexprs
      obtain ⟨e, he, -⟩ := List.map_eq_singleton_iff.mp hexprs
      rw [he]
      exact ite_self none
    · obtain rfl := List.mem_singleton.mp hmark
      rw [if_pos (List.contains_iff_mem.mpr (by simp))]
  rw [hsecond, times_eq_timesIn leaf .expr hfits (by decide), timesIn_pair hfits (by decide),
    times_optional, times_optional]

private theorem times_caught (hfits : (Shape.ofKind .exceptClause).Fits (parts.filterMap piece?)) :
    timesIn leaf .expr parts =
      Mention.times leaf (Expr.optionalMentions .used (parts.filterMap expr?).head?) +
        Mention.times leaf (nameMentions .other
          (if hasToken (.keyword .asWord) parts then (parts.filterMap name?).getLast? else none)) := by
  have hexprs := map_piece_exprs parts
  rw [timesIn_pair hfits (by decide), times_optional, times_names, hasToken_eq rfl, filterMap_name_exprs]
  obtain ⟨_, _, hpieces, ⟨_, hword, rfl⟩, caught, block, rfl, hcaught, _, _, rfl, ⟨_, hcolon, rfl⟩, _, hsuite,
    rfl⟩ := hfits
  obtain rfl := List.mem_singleton.mp hword
  obtain rfl := List.mem_singleton.mp hcolon
  obtain rfl := List.mem_singleton.mp hsuite
  rw [hpieces] at hexprs ⊢
  rcases hcaught with rfl | ⟨_, _, rfl, ⟨first, hfirst, rfl⟩,
    rfl | ⟨_, _, rfl, ⟨_, hmark, rfl⟩, _, hname, rfl⟩⟩
  · rw [List.map_eq_nil_iff.mp hexprs]
    rfl
  · have hexpr : isExpr first = true := List.contains_iff_mem.mpr hfirst
    have hone : (parts.filterMap expr?).map (fun e => e.kind.piece) = [first] := by simpa [hexpr] using hexprs
    obtain ⟨e, he, -⟩ := List.map_eq_singleton_iff.mp hone
    rw [he, if_neg (by simp [ne_word_of_isExpr hexpr])]
    rfl
  · obtain rfl := List.mem_singleton.mp hmark
    obtain rfl := List.mem_singleton.mp hname
    have hexpr : isExpr first = true := List.contains_iff_mem.mpr hfirst
    have hboth : (parts.filterMap expr?).map (fun e => e.kind.piece) = [first, .name] := by
      simpa [List.filter_cons, hexpr] using hexprs
    obtain ⟨e, rest, he, -, hrest⟩ := List.map_eq_cons_iff.mp hboth
    obtain ⟨second, rfl, hsecond⟩ := List.map_eq_singleton_iff.mp hrest
    obtain ⟨name, rfl⟩ := exists_name hsecond
    rw [he, if_pos (List.contains_iff_mem.mpr (by simp))]
    cases e <;> rfl

private theorem times_keyword (hfits : (Shape.ofKind .argument).Fits (parts.filterMap piece?)) :
    (parts.map (times leaf)).sum =
      Mention.times leaf (nameMentions .other
        (if hasToken (.symbol .equals) parts then (parts.filterMap name?).head? else none)) +
        Mention.times leaf (Expr.optionalMentions .used (parts.filterMap expr?).getLast?) := by
  have hexprs := map_piece_exprs parts
  rw [picks_expr.times_all hfits (by decide), times_optional, times_names, hasToken_eq rfl,
    filterMap_name_exprs]
  obtain ⟨stars, _, hpieces, hstars, keyword, _, rfl, hkeyword, value, hvalue, rfl⟩ := hfits
  have hexpr : isExpr value = true := List.contains_iff_mem.mpr hvalue
  have hmarks : stars.filter isExpr = [] ∧ .word (.symbol .equals) ∉ stars := by
    rcases hstars with rfl | ⟨star, hstar, rfl⟩
    · exact ⟨rfl, nofun⟩
    · simp only [List.map_cons, List.map_nil, List.mem_cons, List.not_mem_nil, or_false] at hstar
      rcases hstar with rfl | rfl <;> decide
  rw [hpieces] at hexprs ⊢
  rcases hkeyword with rfl | ⟨_, _, rfl, ⟨_, hname, rfl⟩, _, hmark, rfl⟩
  · have hone : (parts.filterMap expr?).map (fun e => e.kind.piece) = [value] := by
      simpa [hmarks.1, hexpr] using hexprs
    obtain ⟨e, he, -⟩ := List.map_eq_singleton_iff.mp hone
    rw [he, if_neg (by simp [hmarks.2, ne_word_of_isExpr hexpr])]
    exact Nat.add_comm _ _
  · obtain rfl := List.mem_singleton.mp hname
    obtain rfl := List.mem_singleton.mp hmark
    have hboth : (parts.filterMap expr?).map (fun e => e.kind.piece) = [.name, value] := by
      simpa [List.filter_cons, hmarks.1, hexpr] using hexprs
    obtain ⟨first, rest, he, hfirst, hrest⟩ := List.map_eq_cons_iff.mp hboth
    obtain ⟨second, rfl, -⟩ := List.map_eq_singleton_iff.mp hrest
    obtain ⟨name, rfl⟩ := exists_name hfirst
    rw [he, if_pos (List.contains_iff_mem.mpr (by simp))]
    cases second <;> rfl

end Choices

/-- If the children of a node make its shape then a token is mentioned in it as often as in its parts. -/
theorem times_ofTree {kind : NodeKind} {children : List Tree} (leaf : Leaf) (offset : Nat)
    (hkind : kind ≠ .name) (hfits : (Shape.ofKind kind).Fits (Tree.pieces children))
    (hnames : ∀ name, .expr (.name name) ∈ ofTrees offset children → name.ident.isSome = true) :
    (ofTree offset (.node kind children)).times leaf = ((ofTrees offset children).map (times leaf)).sum := by
  have hpromised := promised_of_fits offset hfits
  rw [← pieces_ofTrees offset] at hfits
  rw [ofTree] at hpromised ⊢
  generalize ofTrees offset children = parts at hfits hnames hpromised ⊢
  rw [times]
  cases kind with
  | file | suite =>
    rw [picks_statement.times_all hfits (by decide)]
    exact times_statements leaf _
  | passStatement | breakStatement | continueStatement =>
    rw [times_eq_sum leaf hfits [] (by decide) (by decide), assemble, mentions, Statement.mentions]
    rfl
  | literal =>
    rw [times_eq_sum leaf hfits [] (by decide) (by decide), assemble, mentions, Expr.mentions]
    rfl
  | returnStatement | delStatement =>
    rw [times_first hfits (by decide) (by decide), assemble, mentions, Statement.mentions]
    exact times_optional leaf .used _
  | typeHint | defaultValue | returnType | decorator =>
    rw [times_first hfits (by decide) (by decide)]
    exact times_optional leaf .used _
  | unary | yield =>
    rw [times_first hfits (by decide) (by decide), assemble, mentions, Expr.mentions]
    exact times_optional leaf .used _
  | parenthesized =>
    rw [times_first hfits (by decide) (by decide), assemble, mentions]
    cases (parts.filterMap expr?).head? with
    | none => rw [Expr.mentions]; rfl
    | some e => rw [Expr.mentions]; rfl
  | ifClause =>
    rw [times_first hfits (by decide) (by decide), assemble, mentions, Expr.clauseMentions,
      Expr.clauseMentions, List.append_nil]
    exact times_optional leaf .used _
  | expressionList | list | dictionary | conditional =>
    rw [picks_expr.times_all hfits (by decide), assemble, mentions, Expr.mentions]
    exact times_exprs leaf .used _
  | raiseStatement | assertStatement =>
    rw [picks_expr.times_all hfits (by decide), assemble, mentions, Statement.mentions]
    exact times_exprs leaf .used _
  | subscript =>
    rw [picks_expr.times_all hfits (by decide), assemble, mentions, Expr.subscriptMentions,
      Expr.subscriptMentions, List.append_nil]
    exact times_exprs leaf .used _
  | importStatement =>
    rw [picks_importAlias.times_all hfits (by decide), assemble, mentions, Statement.mentions]
    exact times_imports leaf _
  | fromImportStatement =>
    rw [times_eq_add leaf .dottedName .importAlias hfits (by decide) (by decide),
      picks_dottedName.timesIn_single hfits (by decide), picks_importAlias.timesIn_eq, assemble, mentions,
      Statement.mentions, times_append, times_path, times_imports]
  | dottedName =>
    rw [picks_expr.times_all hfits (by decide), exprs_eq_names hfits (by decide), List.map_map]
    exact times_flatMap_names leaf .other _
  | globalStatement =>
    rw [picks_expr.times_all hfits (by decide), exprs_eq_names hfits (by decide), List.map_map, assemble,
      mentions, Statement.mentions]
    exact times_flatMap_names leaf .other _
  | «attribute» =>
    rw [times_eq_timesIn leaf .expr hfits (by decide), timesIn_name hfits (by decide) (by decide), assemble,
      mentions, Expr.trailerMentions, Expr.trailerMentions, List.append_nil, times_names]
  | importAlias =>
    rw [times_eq_add leaf .dottedName .expr hfits (by decide) (by decide),
      picks_dottedName.timesIn_single hfits (by decide), picks_expr.timesIn_eq,
      exprs_eq_names hfits (by decide), List.map_map, assemble, mentions, ImportAlias.mentions,
      List.flatMap_append, times_append, times_path, times_flatMap_names]
    rfl
  | parameters =>
    rw [picks_parameter.times_all hfits (by decide)]
    exact times_parameters leaf .used _
  | arguments =>
    rw [picks_argument.times_all hfits (by decide), assemble, mentions, Expr.trailerMentions,
      Expr.trailerMentions, List.append_nil]
    exact times_arguments leaf .used _
  | subscripts =>
    rw [picks_subscript.times_all hfits (by decide), assemble, mentions, Expr.trailerMentions,
      Expr.trailerMentions, List.append_nil]
    exact times_subscripts leaf .used _
  | elseClause | finallyClause =>
    rw [times_eq_timesIn leaf .suite hfits (by decide), picks_suite.timesIn_single hfits (by decide)]
    exact times_suite leaf _
  | binary =>
    rw [times_eq_timesIn leaf .expr hfits (by decide), timesIn_pair hfits (by decide), assemble, mentions,
      Expr.mentions, times_append, times_optional, times_optional]
  | forClause =>
    rw [times_eq_timesIn leaf .expr hfits (by decide), timesIn_pair hfits (by decide), assemble, mentions,
      Expr.clauseMentions, Expr.clauseMentions, List.append_nil, times_append, times_optional,
      times_optional, Nat.add_comm]
  | lambda =>
    rw [times_eq_add leaf .parameters .expr hfits (by decide) (by decide),
      picks_parameters.timesIn_single hfits (by decide), timesIn_first hfits (by decide), assemble, mentions]
    cases parts.findSome? parameters? with
    | none => rw [Expr.mentions, times_optional]; simp
    | some own =>
      obtain ⟨extent, items⟩ := own
      rw [Expr.mentions, times_append, times_optional]
      rfl
  | comprehension =>
    rw [times_eq_add leaf .clause .expr hfits (by decide) (by decide), picks_clause.timesIn_eq,
      picks_expr.timesIn_eq, assemble, mentions, Expr.mentions, times_append, times_clauses, times_exprs]
  | withStatement =>
    rw [times_eq_add leaf .withItem .suite hfits (by decide) (by decide), picks_withItem.timesIn_eq,
      picks_suite.timesIn_single hfits (by decide), assemble, mentions, Statement.mentions, times_append,
      times_suite, times_flatMap]
    rfl
  | elifClause =>
    rw [times_eq_add leaf .expr .suite hfits (by decide) (by decide), timesIn_first hfits (by decide),
      picks_suite.timesIn_single hfits (by decide), assemble, mentions, branchMentions, branchMentions,
      List.append_nil, times_append, times_optional, times_suite]
  | ifStatement =>
    rw [times_eq_sum leaf hfits [.expr, .suite, .branch, .block .elseClause] (by decide) (by decide)]
    simp only [List.map_cons, List.map_nil, List.sum_cons, List.sum_nil, assemble, mentions,
      Statement.mentions, times_append]
    rw [timesIn_first hfits (by decide), picks_suite.timesIn_single hfits (by decide),
      picks_branch.timesIn_eq, (picks_block (by decide)).timesIn_single hfits (by decide), times_optional,
      times_suite, times_branches, times_block leaf .elseClause]
    omega
  | whileStatement =>
    rw [times_eq_sum leaf hfits [.expr, .suite, .block .elseClause] (by decide) (by decide)]
    simp only [List.map_cons, List.map_nil, List.sum_cons, List.sum_nil, assemble, mentions,
      Statement.mentions, times_append]
    rw [timesIn_first hfits (by decide), picks_suite.timesIn_single hfits (by decide),
      (picks_block (by decide)).timesIn_single hfits (by decide), times_optional, times_suite,
      times_block leaf .elseClause]
    omega
  | forStatement =>
    rw [times_eq_sum leaf hfits [.expr, .suite, .block .elseClause] (by decide) (by decide)]
    simp only [List.map_cons, List.map_nil, List.sum_cons, List.sum_nil, assemble, mentions,
      Statement.mentions, times_append]
    rw [timesIn_pair hfits (by decide), picks_suite.timesIn_single hfits (by decide),
      (picks_block (by decide)).timesIn_single hfits (by decide), times_optional, times_optional, times_suite,
      times_block leaf .elseClause]
    omega
  | tryStatement =>
    rw [times_eq_sum leaf hfits [.suite, .handler, .block .elseClause, .block .finallyClause] (by decide)
      (by decide)]
    simp only [List.map_cons, List.map_nil, List.sum_cons, List.sum_nil, assemble, mentions,
      Statement.mentions, times_append]
    rw [picks_suite.timesIn_single hfits (by decide), picks_handler.timesIn_eq,
      (picks_block (by decide)).timesIn_single hfits (by decide),
      (picks_block (by decide)).timesIn_single hfits (by decide), times_suite, times_handlers,
      times_block leaf .elseClause, times_block leaf .finallyClause]
    omega
  | expressionStatement =>
    rw [times_eq_add leaf .expr (.holder .typeHint) hfits (by decide) (by decide), picks_expr.timesIn_eq,
      (picks_holder (by decide)).timesIn_single hfits (by decide), assemble, mentions, Statement.mentions,
      times_append, times_expressions, times_holder leaf .other .typeHint]
  | parameter =>
    rw [times_eq_sum leaf hfits [.expr, .holder .typeHint, .holder .defaultValue] (by decide) (by decide)]
    simp only [List.map_cons, List.map_nil, List.sum_cons, List.sum_nil, assemble, mentions,
      Expr.parameterMentions, times_append, List.append_nil]
    rw [timesIn_name hfits (by decide) (by decide),
      (picks_holder (by decide)).timesIn_single hfits (by decide),
      (picks_holder (by decide)).timesIn_single hfits (by decide), times_names,
      times_holder leaf .other .typeHint, times_holder leaf .used .defaultValue]
    omega
  | chain =>
    obtain ⟨atom, hatom⟩ := Option.isSome_iff_exists.mp hpromised.1
    rw [times_eq_add leaf .expr .trailer hfits (by decide) (by decide), timesIn_first hfits (by decide),
      picks_trailer.timesIn_eq, assemble, mentions, hatom]
    refine times_chain leaf ?_
    rintro name rfl
    obtain ⟨part, hmem, hpart⟩ := List.mem_filterMap.mp (List.mem_of_head? hatom)
    exact hnames name (picks_expr.eq hpart ▸ hmem)
  | function =>
    rw [times_eq_sum leaf hfits [.holder .decorator, .expr, .parameters, .holder .returnType, .suite]
      (by decide) (by decide)]
    obtain ⟨name, text, hname, htext⟩ := exists_text hpromised.1 hnames
    simp only [List.map_cons, List.map_nil, List.sum_cons, List.sum_nil, assemble, mentions,
      Statement.mentions, times_append, hname, Option.bind_some, htext]
    rw [(picks_holder (by decide)).timesIn_eq, timesIn_name hfits (by decide) (by decide), hname,
      picks_parameters.timesIn_single hfits (by decide),
      (picks_holder (by decide)).timesIn_single hfits (by decide),
      picks_suite.timesIn_single hfits (by decide), times_decorators, times_names, times_parametersOf,
      times_holder leaf .other .returnType, times_suite]
    omega
  | classDefinition =>
    rw [times_eq_sum leaf hfits [.holder .decorator, .expr, .trailer, .suite] (by decide) (by decide)]
    obtain ⟨name, text, hname, htext⟩ := exists_text hpromised.1 hnames
    simp only [List.map_cons, List.map_nil, List.sum_cons, List.sum_nil, assemble, mentions,
      Statement.mentions, times_append, hname, Option.bind_some, htext]
    rw [(picks_holder (by decide)).timesIn_eq, timesIn_name hfits (by decide) (by decide), hname,
      timesIn_bases hfits (by decide) (by decide), picks_suite.timesIn_single hfits (by decide),
      times_decorators, times_names, times_suite]
    omega
  | withItem =>
    rw [times_withItem leaf hfits]
    exact times_append leaf _ _
  | exceptClause =>
    rw [times_eq_add leaf .expr .suite hfits (by decide) (by decide), times_caught leaf hfits,
      picks_suite.timesIn_single hfits (by decide), assemble, mentions, handlerMentions, handlerMentions,
      List.append_nil, times_append, times_append, times_suite]
  | argument =>
    rw [times_keyword leaf hfits, assemble, mentions, Expr.argumentMentions, Expr.argumentMentions,
      List.append_nil]
    exact times_append leaf _ _
  | error =>
    obtain ⟨piece, hmem, -⟩ := hfits
    cases hmem
  | name => exact absurd rfl hkind

end Part

end Ast

end QuantumScript
