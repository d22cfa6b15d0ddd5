import Mathlib.Data.List.Basic
import QuantumScript.Syntax.Ast
import QuantumScript.Declaration
/-!
# Mentions of names

Every name that is written in a script has a role: some are looked up, some are bound there, some only
name a part of something else. The roles follow from the syntax. Mentions are listed in the order in
which the walk comes to them, which is not always that of the text: what is iterated over comes before
the target, and the clauses of a comprehension come before its elements.
-/

namespace QuantumScript

namespace Ast

/-- What a name that is written stands for. -/
inductive Role
  /-- The binding that it means is looked up. -/
  | used
  /-- It is a target: of an assignment, a loop, a `with` item or a comprehension. -/
  | bound
  /-- It stands in a part of a target that is no name, and is not looked up. -/
  | passed
  /-- It stands in a declaration that has a hint and no value. It is looked up only if the hint names no
  type that is known. -/
  | declared
  /-- The name of a definition, a parameter, a keyword, an attribute, an alias, something imported or
  declared global, or any name in a hint. -/
  | other
  deriving DecidableEq, Repr

namespace Role

/-- Role of the names in a part that is no list of targets. -/
def inside : Role → Role
  | .bound => .passed
  | role => role

/-- Role of a target that stands in something. -/
def target : Role → Role
  | .other => .other
  | _ => .bound

end Role

structure Mention where
  role : Role
  leaf : Leaf
  deriving DecidableEq, Repr

def Name.mentions (role : Role) (name : Name) : List Mention := name.ident.toList.map (Mention.mk role)

/-- A name that may be missing. -/
def nameMentions (role : Role) : Option Name → List Mention
  | none => []
  | some name => name.mentions role

namespace Expr

mutual

/-- The names in an expression. The role is that of the names which it is made of itself. -/
def mentions (role : Role) : Expr → List Mention
  | .name part => part.mentions role
  | .literal _ _ => []
  | .chain _ none _ => []
  | .chain _ (some (.name part)) trailers =>
    match part.ident with
    | none => []
    | some leaf => ⟨role.inside, leaf⟩ :: trailerMentions role.inside trailers
  | .chain _ (some atom) trailers =>
    mentions role.inside atom ++ trailerMentions role.inside trailers
  | .binary _ _ left right =>
    optionalMentions role.inside left ++ optionalMentions role.inside right
  | .unary _ _ operand => optionalMentions role.inside operand
  | .parenthesized _ none => []
  | .parenthesized _ (some inner) => mentions role inner
  | .list _ items | .expressionList _ items => exprMentions role items
  | .dictionary _ items | .conditional _ items => exprMentions role.inside items
  | .lambda _ none body => optionalMentions role.inside body
  | .lambda _ (some ⟨_, items⟩) body =>
    parameterMentions role.inside items ++ optionalMentions role.inside body
  | .yield _ value => optionalMentions role.inside value
  | .comprehension _ elements clauses _ _ =>
    clauseMentions role.inside clauses ++ exprMentions role.inside elements

def optionalMentions (role : Role) : Option Expr → List Mention
  | none => []
  | some e => mentions role e

def exprMentions (role : Role) : List Expr → List Mention
  | [] => []
  | e :: rest => mentions role e ++ exprMentions role rest

def trailerMentions (role : Role) : List Trailer → List Mention
  | [] => []
  | .attribute _ part :: rest => nameMentions .other part ++ trailerMentions role rest
  | .arguments _ items :: rest => argumentMentions role items ++ trailerMentions role rest
  | .subscripts _ items :: rest => subscriptMentions role items ++ trailerMentions role rest

def argumentMentions (role : Role) : List Argument → List Mention
  | [] => []
  | ⟨_, keyword, _, value⟩ :: rest =>
    nameMentions .other keyword ++ optionalMentions role value ++ argumentMentions role rest

def subscriptMentions (role : Role) : List Subscript → List Mention
  | [] => []
  | ⟨_, parts⟩ :: rest => exprMentions role parts ++ subscriptMentions role rest

/-- The names of parameters, with those in hints and default values. -/
def parameterMentions (role : Role) : List Parameter → List Mention
  | [] => []
  | ⟨_, part, hint, default, _⟩ :: rest =>
    nameMentions .other part ++ holderMentions .other hint ++ holderMentions role default ++
      parameterMentions role rest

def holderMentions (role : Role) : Option Holder → List Mention
  | none => []
  | some ⟨_, value⟩ => optionalMentions role value

def clauseMentions (role : Role) : List Clause → List Mention
  | [] => []
  | .forClause _ target iterable :: rest =>
    optionalMentions role iterable ++ optionalMentions role.target target ++
      clauseMentions role rest
  | .ifClause _ condition :: rest => optionalMentions role condition ++ clauseMentions role rest

end

/-- The names in a target of an assignment that is walked by itself: a name or a list of targets binds,
anything else is a use of the names in it. -/
def targetMentions (e : Expr) : List Mention :=
  match e with
  | .name _ | .expressionList _ _ | .list _ _ | .parenthesized _ _ => e.mentions .bound
  | _ => e.mentions .used

end Expr

open QuantumScript.Ast.Expr

def ImportAlias.mentions (item : ImportAlias) : List Mention :=
  (item.path.elim [] DottedName.names ++ item.names).flatMap (Name.mentions .other)

def importMentions (items : List ImportAlias) : List Mention := items.flatMap ImportAlias.mentions

def WithItem.mentions (item : WithItem) : List Mention :=
  optionalMentions .used item.value ++ optionalMentions .bound item.target

/-- The names in decorators. -/
def decoratorMentions (items : List Holder) : List Mention :=
  items.flatMap fun item => holderMentions .used (some item)

/-- The names in an expression statement without its hint. -/
def expressionMentions (items : List Expr) (assigns augments : Bool) (hint : Option Holder) :
    List Mention :=
  if augments then exprMentions .used items
  else if assigns then
    items.dropLast.flatMap targetMentions ++ optionalMentions .used items.getLast?
  else if (hint.bind Holder.typeName?).isSome then exprMentions .declared items
  else exprMentions .used items

mutual

/-- The names in a statement. A definition without a name is not walked further than its head. -/
def Statement.mentions : Statement → List Mention
  | .expressionStatement _ items assigns augments hint =>
    expressionMentions items assigns augments hint ++ holderMentions .other hint
  | .passStatement _ | .breakStatement _ | .continueStatement _ => []
  | .returnStatement _ value | .delStatement _ value => optionalMentions .used value
  | .importStatement _ aliases => importMentions aliases
  | .fromImportStatement _ path aliases _ =>
    (path.elim [] DottedName.names).flatMap (Name.mentions .other) ++ importMentions aliases
  | .raiseStatement _ items | .assertStatement _ items => exprMentions .used items
  | .globalStatement _ names _ => names.flatMap (Name.mentions .other)
  | .function _ decorators part parameters returns body =>
    decoratorMentions decorators ++
      match part.bind Name.text with
      | none => []
      | some _ =>
        nameMentions .other part ++ parameterMentions .used (parametersOf parameters) ++
          holderMentions .other returns ++ suiteMentions body
  | .classDefinition _ decorators part bases body =>
    decoratorMentions decorators ++ argumentMentions .used (basesOf bases) ++
      match part.bind Name.text with
      | none => []
      | some _ => nameMentions .other part ++ suiteMentions body
  | .ifStatement _ condition body branches otherwise =>
    optionalMentions .used condition ++ suiteMentions body ++ branchMentions branches ++
      blockMentions otherwise
  | .whileStatement _ condition body otherwise =>
    optionalMentions .used condition ++ suiteMentions body ++ blockMentions otherwise
  | .forStatement _ target iterable body otherwise =>
    optionalMentions .used iterable ++ optionalMentions .bound target ++ suiteMentions body ++
      blockMentions otherwise
  | .withStatement _ items body => items.flatMap WithItem.mentions ++ suiteMentions body
  | .tryStatement _ body handlers otherwise cleanup =>
    suiteMentions body ++ handlerMentions handlers ++ blockMentions otherwise ++
      blockMentions cleanup

def statementMentions : List Statement → List Mention
  | [] => []
  | first :: rest => first.mentions ++ statementMentions rest

def suiteMentions : Option Suite → List Mention
  | none => []
  | some ⟨_, items⟩ => statementMentions items

def branchMentions : List Branch → List Mention
  | [] => []
  | ⟨_, condition, body⟩ :: rest =>
    optionalMentions .used condition ++ suiteMentions body ++ branchMentions rest

def handlerMentions : List Handler → List Mention
  | [] => []
  | ⟨_, caught, part, body⟩ :: rest =>
    optionalMentions .used caught ++ nameMentions .other part ++ suiteMentions body ++
      handlerMentions rest

def blockMentions : Option Block → List Mention
  | none => []
  | some ⟨_, body⟩ => suiteMentions body

end

def Script.mentions (script : Script) : List Mention := statementMentions script.statements

/-- The names of a role. -/
def Mention.ofRole (role : Role) (mentions : List Mention) : List Leaf :=
  (mentions.filter fun mention => mention.role = role).map Mention.leaf

namespace Role

/-- Names of the role are never looked up. -/
def silent : Role → Bool
  | .used | .declared => false
  | _ => true

@[simp] theorem silent_target (role : Role) : role.target.silent = true := by
  cases role <;> rfl

theorem inside_of_not_silent {role : Role} (h : role.silent = false) : role.inside = role := by
  cases role <;> first | rfl | cases h

end Role

/-- The names that may be looked up. -/
def Mention.lookable (mentions : List Mention) : List Leaf :=
  (mentions.filter fun mention => !mention.role.silent).map Mention.leaf

/-- The names of a role that may be looked up are among all those that may be. -/
theorem Mention.ofRole_sublist {role : Role} (h : role.silent = false) (mentions : List Mention) :
    (Mention.ofRole role mentions).Sublist (Mention.lookable mentions) := by
  refine (mentions.monotone_filter_right ?_).map Mention.leaf
  intro mention hrole
  rw [of_decide_eq_true hrole, h]
  rfl

/-- All names that may be looked up are of the role. -/
def OfRole (role : Role) (mentions : List Mention) : Prop :=
  ∀ mention ∈ mentions, mention.role = role ∨ mention.role.silent = true

namespace OfRole

variable {role given : Role} {mentions : List Mention}

theorem nil : OfRole role [] := List.forall_mem_nil _

theorem append {others : List Mention} (h : OfRole role mentions) (hothers : OfRole role others) :
    OfRole role (mentions ++ others) := List.forall_mem_append.mpr ⟨h, hothers⟩

theorem silent (h : OfRole given mentions) (hgiven : given.silent = true) : OfRole role mentions := by
  intro mention hmem
  refine .inr ((h mention hmem).elim ?_ id)
  rintro rfl
  exact hgiven

theorem inside (h : OfRole role.inside mentions) : OfRole role mentions := by
  cases role with
  | bound => exact h.silent rfl
  | _ => exact h

theorem ofRole_eq_nil (h : OfRole role mentions) (hrole : given ≠ role) (hgiven : given.silent = false) :
    Mention.ofRole given mentions = [] := by
  refine List.map_eq_nil_iff.mpr (List.filter_eq_nil_iff.mpr fun mention hmem hgivenRole => ?_)
  obtain rfl := of_decide_eq_true hgivenRole
  rcases h mention hmem with heq | hsilent
  · exact hrole heq
  · rw [hsilent] at hgiven
    cases hgiven

end OfRole

theorem ofRole_name (role : Role) (part : Name) : OfRole role (part.mentions role) := by
  intro mention hmem
  obtain ⟨leaf, _, rfl⟩ := List.mem_map.mp hmem
  exact .inl rfl

theorem ofRole_names (role : Role) (part : Option Name) : OfRole role (nameMentions role part) := by
  cases part with
  | none => exact OfRole.nil
  | some part => exact ofRole_name role part

theorem ofRole_flatMap {α : Type} {role : Role} {f : α → List Mention} (h : ∀ item, OfRole role (f item))
    (items : List α) : OfRole role (items.flatMap f) := by
  intro mention hmem
  obtain ⟨item, _, hmention⟩ := List.mem_flatMap.mp hmem
  exact h item mention hmention

theorem ofRole_imports (items : List ImportAlias) : OfRole .other (importMentions items) :=
  ofRole_flatMap (fun _ => ofRole_flatMap (ofRole_name .other) _) items

namespace Expr

mutual

/-- The role that is given to a part is the only one with which names in it may be looked up. -/
theorem ofRole_mentions (role : Role) (e : Expr) : OfRole role (e.mentions role) := by
  match e with
  | .name part =>
    rw [mentions]
    exact ofRole_name role part
  | .literal _ _ | .chain _ none _ | .parenthesized _ none =>
    rw [mentions]
    exact OfRole.nil
  | .chain _ (some atom) trailers =>
    have hatom := (ofRole_mentions role.inside atom).inside
    have htrailers := (ofRole_trailers role.inside trailers).inside
    cases atom with
    | name part =>
      rw [mentions]
      split
      · exact OfRole.nil
      · rename_i leaf _
        have hleaf : OfRole role.inside [⟨role.inside, leaf⟩] :=
          List.forall_mem_singleton.mpr (.inl rfl)
        exact hleaf.inside.append htrailers
    | _ =>
      rw [mentions]
      · exact hatom.append htrailers
      · simp
  | .binary _ _ left right =>
    rw [mentions]
    exact ((ofRole_optional _ left).append (ofRole_optional _ right)).inside
  | .unary _ _ value | .yield _ value | .lambda _ none value =>
    rw [mentions]
    exact (ofRole_optional _ value).inside
  | .parenthesized _ (some inner) =>
    rw [mentions]
    exact ofRole_mentions role inner
  | .list _ items | .expressionList _ items =>
    rw [mentions]
    exact ofRole_exprs role items
  | .dictionary _ items | .conditional _ items =>
    rw [mentions]
    exact (ofRole_exprs _ items).inside
  | .lambda _ (some ⟨_, items⟩) body =>
    rw [mentions]
    exact ((ofRole_parameters _ items).append (ofRole_optional _ body)).inside
  | .comprehension _ elements clauses _ _ =>
    rw [mentions]
    exact ((ofRole_clauses _ clauses).append (ofRole_exprs _ elements)).inside

theorem ofRole_optional (role : Role) (e : Option Expr) : OfRole role (optionalMentions role e) := by
  match e with
  | none => exact OfRole.nil
  | some e => exact ofRole_mentions role e

theorem ofRole_exprs (role : Role) (items : List Expr) : OfRole role (exprMentions role items) := by
  match items with
  | [] => exact OfRole.nil
  | e :: rest => exact (ofRole_mentions role e).append (ofRole_exprs role rest)

private theorem ofRole_trailers (role : Role) (trailers : List Trailer) :
    OfRole role (trailerMentions role trailers) := by
  match trailers with
  | [] => exact OfRole.nil
  | .attribute _ part :: rest =>
    exact ((ofRole_names .other part).silent rfl).append (ofRole_trailers role rest)
  | .arguments _ items :: rest => exact (ofRole_arguments role items).append (ofRole_trailers role rest)
  | .subscripts _ items :: rest =>
    exact (ofRole_subscripts role items).append (ofRole_trailers role rest)

private theorem ofRole_arguments (role : Role) (items : List Argument) :
    OfRole role (argumentMentions role items) := by
  match items with
  | [] => exact OfRole.nil
  | ⟨_, keyword, _, value⟩ :: rest =>
    exact (((ofRole_names .other keyword).silent rfl).append (ofRole_optional role value)).append
      (ofRole_arguments role rest)

private theorem ofRole_subscripts (role : Role) (items : List Subscript) :
    OfRole role (subscriptMentions role items) := by
  match items with
  | [] => exact OfRole.nil
  | ⟨_, parts⟩ :: rest => exact (ofRole_exprs role parts).append (ofRole_subscripts role rest)

private theorem ofRole_parameters (role : Role) (items : List Parameter) :
    OfRole role (parameterMentions role items) := by
  match items with
  | [] => exact OfRole.nil
  | ⟨_, part, hint, default, _⟩ :: rest =>
    exact ((((ofRole_names .other part).silent rfl).append ((ofRole_holder .other hint).silent rfl)).append
      (ofRole_holder role default)).append (ofRole_parameters role rest)

theorem ofRole_holder (role : Role) (holder : Option Holder) :
    OfRole role (holderMentions role holder) := by
  match holder with
  | none => exact OfRole.nil
  | some ⟨_, value⟩ => exact ofRole_optional role value

private theorem ofRole_clauses (role : Role) (clauses : List Clause) :
    OfRole role (clauseMentions role clauses) := by
  match clauses with
  | [] => exact OfRole.nil
  | .forClause _ target iterable :: rest =>
    exact ((ofRole_optional role iterable).append
      ((ofRole_optional role.target target).silent role.silent_target)).append
        (ofRole_clauses role rest)
  | .ifClause _ condition :: rest =>
    exact (ofRole_optional role condition).append (ofRole_clauses role rest)

end

end Expr

end Ast

end QuantumScript
