import QuantumScript.Hoisting
import QuantumScript.Proofs.Ordering.Expressions
/-!
# Hints in any order

Hints name types. The names are read off the syntax, so they do not depend on where a hint stands.
-/

namespace QuantumScript

namespace Ast

variable (g : Placing) (index other : Text.LineIndex)

private theorem Trailer.isAttribute_place (trailer : Trailer) :
    (trailer.place g).isAttribute = trailer.isAttribute := by
  cases trailer <;> rfl

private theorem Trailer.attributeText_place (trailer : Trailer) :
    (trailer.place g).attributeText = trailer.attributeText := by
  cases trailer with
  | «attribute» extent name => exact Name.bind_text_place g name
  | _ => rfl

private theorem Expr.typeName?_chain (extent : Extent) (atom : Option Expr) (trailers : List Trailer) :
    (chain extent atom trailers).typeName? =
      if trailers.all Trailer.isAttribute then trailers.getLast?.bind Trailer.attributeText
      else atom.bind typeName? := by
  conv => lhs; unfold typeName?
  cases atom <;> rfl

private theorem Expr.typeName?_place (e : Expr) : (e.place g).typeName? = e.typeName? := by
  match e with
  | .name part => exact part.text_place g
  | .literal _ tokens => cases tokens <;> rfl
  | .chain _ atom trailers =>
    have hall : (trailers.map (Trailer.place g)).all Trailer.isAttribute = trailers.all Trailer.isAttribute := by
      rw [List.all_map]
      exact congrArg trailers.all (funext (Trailer.isAttribute_place g))
    have hlast : ((trailers.map (Trailer.place g)).getLast?).bind Trailer.attributeText =
        trailers.getLast?.bind Trailer.attributeText := by
      rw [List.getLast?_map]
      cases trailers.getLast? with
      | none => rfl
      | some trailer => exact trailer.attributeText_place g
    rw [Expr.place, placeTrailers_eq, typeName?_chain, typeName?_chain, hall, hlast]
    cases atom with
    | none => rfl
    | some atom => rw [placeOptional, Option.bind_some, Option.bind_some, Expr.typeName?_place atom]
  | .binary _ _ _ _ | .unary _ _ _ | .parenthesized _ _ | .list _ _ | .dictionary _ _ | .conditional _ _
  | .expressionList _ _ | .lambda _ _ _ | .yield _ _ | .comprehension _ _ _ _ _ => rfl

private theorem Holder.typeName?_place (holder : Holder) : (holder.place g).typeName? = holder.typeName? := by
  obtain ⟨extent, value⟩ := holder
  cases value with
  | none => rfl
  | some value => exact value.typeName?_place g

private theorem Holder.bind_typeName?_place (holder : Option Holder) :
    (holder.map (Holder.place g)).bind Holder.typeName? = holder.bind Holder.typeName? := by
  cases holder with
  | none => rfl
  | some holder => exact holder.typeName?_place g

private theorem Holder.name_hint? (holder : Option Holder) :
    (holder.bind (Holder.hint? index)).map Hint.typeName = holder.bind Holder.typeName? := by
  cases holder with
  | none => rfl
  | some holder =>
    obtain ⟨extent, value⟩ := holder
    cases value with
    | none => rfl
    | some value =>
      simp only [Option.bind_some, Holder.hint?, Holder.typeName?]
      cases value.typeName? <;> rfl

namespace Parameter

variable (parameter : Parameter)

private theorem typeName?_place : (parameter.place g).typeName? = parameter.typeName? := by
  obtain ⟨extent, name, hint, default, variadic⟩ := parameter
  simp only [typeName?, place, placeHolder_eq]
  exact Holder.bind_typeName?_place g hint

private theorem variadic_place : (parameter.place g).variadic = parameter.variadic := by
  cases parameter
  rfl

private theorem spec?_place : (parameter.place g).spec? = parameter.spec? := by
  have hdefault : (parameter.place g).default.isSome = parameter.default.isSome := by
    obtain ⟨extent, name, hint, default, variadic⟩ := parameter
    simp only [place, placeHolder_eq, Option.isSome_map]
  rw [spec?, spec?, variadic_place, text_place, typeName?_place, hdefault]

private theorem withoutReceiver_place (isMethod : Bool) (items : List Parameter) :
    withoutReceiver isMethod (items.map (place g)) = (withoutReceiver isMethod items).map (place g) := by
  cases items with
  | nil => rfl
  | cons first rest =>
    have hreceiver : (first.place g).isReceiver = first.isReceiver := by
      rw [isReceiver, isReceiver, variadic_place, text_place]
    rw [List.map_cons, withoutReceiver, withoutReceiver, hreceiver]
    split <;> rfl

end Parameter

private theorem names_signatureHints (isMethod : Bool) (name : Option Name) (parameters : Option Parameters)
    (returns : Option Holder) : (signatureHints index isMethod name parameters returns).map Hint.typeName =
      if (name.bind Name.text).isSome then
        ((Parameter.withoutReceiver isMethod (parametersOf parameters)).filter
          fun parameter => parameter.spec?.isSome).filterMap Parameter.typeName? ++
            (returns.bind Holder.typeName?).toList
      else [] := by
  unfold signatureHints
  split
  · rw [List.map_append, List.map_filterMap, ← Option.toList_map, Holder.name_hint?]
    congr 2
    exact funext fun parameter => Holder.name_hint? index parameter.hint
  · rfl

private theorem names_signatureHints_place (isMethod : Bool) (name : Option Name)
    (parameters : Option Parameters)
    (returns : Option Holder) :
    (signatureHints other isMethod (name.map (Name.place g)) (parameters.map (Parameters.place g))
      (returns.map (Holder.place g))).map Hint.typeName =
        (signatureHints index isMethod name parameters returns).map Hint.typeName := by
  rw [names_signatureHints, names_signatureHints, Name.bind_text_place, Holder.bind_typeName?_place,
    parametersOf_place, Parameter.withoutReceiver_place, List.filter_map, List.filterMap_map]
  simp only [Function.comp_def, Parameter.spec?_place, Parameter.typeName?_place]

namespace Statement

private theorem names_methodHints_place (s : Statement) :
    ((s.place g).methodHints other).map Hint.typeName = (s.methodHints index).map Hint.typeName := by
  cases s with
  | function extent decorators name parameters returns body =>
    rw [place, placeParameters_eq, placeHolder_eq]
    exact names_signatureHints_place g index other true name parameters returns
  | _ => rfl

/-- The hints of a statement name the same types wherever it stands. -/
theorem names_hints_place (s : Statement) :
    ((s.place g).hints other).map Hint.typeName = (s.hints index).map Hint.typeName := by
  cases s with
  | function extent decorators name parameters returns body =>
    rw [place, placeParameters_eq, placeHolder_eq]
    exact names_signatureHints_place g index other false name parameters returns
  | classDefinition extent decorators name bases body =>
    have hbody : statementsOf (placeSuite g body) = (statementsOf body).map (place g) := by
      cases body with
      | none => rfl
      | some body =>
        obtain ⟨extent, items⟩ := body
        exact placeStatements_eq g items
    rw [place, hints, hints, classHints, classHints, Name.bind_text_place, hbody]
    split
    · rw [List.flatMap_map, List.map_flatMap, List.map_flatMap]
      exact congrArg (List.flatMap · _) (funext fun s => s.names_methodHints_place g index other)
    · rfl
  | expressionStatement extent items assigns augments hint =>
    rw [place, placeHolder_eq, hints, hints, ← Option.toList_map, ← Option.toList_map, Holder.name_hint?,
      Holder.name_hint?, Holder.bind_typeName?_place]
  | _ => rfl

end Statement

end Ast

namespace Hoisting

open Text (LineIndex)

/-- What is found about the names of types that are not known. -/
def unknown (table : SymbolTable) (names : List String) : List Finding :=
  (names.filter fun name => (table.resolveType? name).isNone).map .unknownType

/-- What is known about the names decides what is found. -/
theorem unknown_congr {table other : SymbolTable} (h : ∀ name, (table.resolveType? name).isSome = true ↔
    (other.resolveType? name).isSome = true) (names : List String) : unknown table names = unknown other names := by
  have hsame (name : String) : (table.resolveType? name).isNone = (other.resolveType? name).isNone := by
    rw [Bool.eq_iff_iff, ← Option.not_isSome, ← Option.not_isSome, Bool.not_eq_true', Bool.not_eq_true',
      ← Bool.not_eq_true, ← Bool.not_eq_true, h name]
  simp only [unknown, hsame]

/-- The warnings find the names of types unknown that the hints name. -/
theorem namings_warnings (index : LineIndex) (script : Ast.Script) (table : SymbolTable) :
    (warnings index script table).filterMap Diagnostic.naming? =
      unknown table ((script.statements.flatMap (Ast.Statement.hints index)).map Hint.typeName) := by
  rw [warnings, List.filterMap_filterMap, unknown, List.filter_map, List.map_map, ← List.filterMap_eq_map,
    List.filterMap_filter]
  refine congrArg (List.filterMap · _) (funext fun hint => ?_)
  rw [hintProblem?, Function.comp_apply]
  cases table.resolveType? hint.typeName <;> rfl

end Hoisting

end QuantumScript
