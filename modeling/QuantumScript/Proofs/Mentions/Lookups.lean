import QuantumScript.Proofs.Mentions.Roles
import QuantumScript.Proofs.Walking.Uses
/-!
# Lookups of a walk

The walk of an expression looks up the names that are used in it, each once and in the order of their
mentions. In the walk of a statement those names come in between that a declaration with a hint has
brought, if the hint names no type that is known.
-/

namespace QuantumScript

open Ast Ast.Expr

/-- The sites of the names of a role. -/
def Text.LineIndex.sitesOf (index : Text.LineIndex) (role : Role) (mentions : List Mention) :
    List Site := (Mention.ofRole role mentions).map index.leafSite

/-- The sites of all names that may be looked up. -/
def Text.LineIndex.lookable (index : Text.LineIndex) (mentions : List Mention) : List Site :=
  (Mention.lookable mentions).map index.leafSite

namespace Inference

open Text (LineIndex)

/-- Whatever the state, the part of a walk looks names up at the sites, in this order. -/
def LooksUp {α : Type} (part : Inference α) (sites : List Site) : Prop :=
  ∀ state, (part.run state).2.uses.map Use.site = state.uses.map Use.site ++ sites

section Parts

variable {α β : Type}

theorem LooksUp.of_same {part : Inference α} (h : ∀ state, (part.run state).2.uses = state.uses) :
    LooksUp part [] := by
  intro state
  rw [h, List.append_nil]

theorem looksUp_pure (value : α) : LooksUp (pure value) [] := .of_same fun _ => rfl

private theorem looksUp_table : LooksUp table [] := .of_same fun _ => rfl

theorem looksUp_modifyTable (f : SymbolTable → SymbolTable) : LooksUp (modifyTable f) [] :=
  .of_same fun _ => rfl

private theorem looksUp_report (found : List Diagnostic) : LooksUp (report found) [] := .of_same fun _ => rfl

private theorem looksUp_track (f : AssignmentTracker → AssignmentTracker) : LooksUp (track f) [] :=
  .of_same fun _ => rfl

private theorem looksUp_finish : LooksUp finish [] := .of_same fun _ => rfl

private theorem looksUp_resolve (site : Site) : LooksUp (resolve site) [site] := by
  intro state
  exact List.map_append

theorem LooksUp.bind {first : Inference α} {next : α → Inference β} {sites more : List Site}
    (hfirst : LooksUp first sites) (hnext : ∀ value, LooksUp (next value) more) :
    LooksUp (first >>= next) (sites ++ more) := by
  intro state
  have hlater := hnext (first.run state).1 (first.run state).2
  rw [hfirst state, List.append_assoc] at hlater
  exact hlater

theorem LooksUp.after {first : Inference α} {next : α → Inference β} {sites : List Site}
    (hfirst : LooksUp first []) (hnext : ∀ value, LooksUp (next value) sites) :
    LooksUp (first >>= next) sites := hfirst.bind hnext

/-- A step after that looks nothing up. -/
theorem LooksUp.before {first : Inference α} {next : α → Inference β} {sites : List Site}
    (hfirst : LooksUp first sites) (hnext : ∀ value, LooksUp (next value) []) :
    LooksUp (first >>= next) sites := by
  have hboth := hfirst.bind hnext
  rwa [List.append_nil] at hboth

private theorem looksUp_forM {f : α → Inference PUnit} (h : ∀ item, LooksUp (f item) []) (items : List α) :
    LooksUp (items.forM f) [] := by
  induction items with
  | nil => exact looksUp_pure _
  | cons item rest ih => exact (h item).after fun _ => ih

theorem looksUp_define (name : String) (type : SymbolType) (line : Nat) :
    LooksUp (define name type line) [] := looksUp_modifyTable _

private theorem looksUp_defineAll (names : List String) (type : SymbolType) (line : Nat) :
    LooksUp (defineAll names type line) [] := looksUp_forM (fun name => looksUp_define name type line) names

private theorem looksUp_defineTarget (target : Expr) (type : SymbolType) (line : Nat) :
    LooksUp (defineTarget target type line) [] := looksUp_defineAll _ type line

private theorem looksUp_trackIf (tracked : Bool) (f : AssignmentTracker → AssignmentTracker) :
    LooksUp (trackIf tracked f) [] := by
  unfold trackIf
  split
  · exact looksUp_track f
  · exact looksUp_pure ()

theorem uses_close (state : State) (line : Nat) : (state.close line).uses = state.uses := by
  unfold State.close
  split <;> rfl

theorem LooksUp.within {name : String} {opened closed : Nat} {body : Inference Unit}
    {sites : List Site} (h : LooksUp body sites) : LooksUp (within name opened closed body) sites := by
  intro state
  rw [run_within, uses_close]
  exact h _

theorem LooksUp.isolated {name : String} {line : Nat} {body : Inference Unit} {sites : List Site}
    (h : LooksUp body sites) : LooksUp (isolated name line body) sites := by
  unfold Inference.isolated
  refine LooksUp.after (looksUp_table.after fun _ => looksUp_pure _) fun resume => ?_
  exact h.within.before fun _ => looksUp_modifyTable _

private theorem looksUp_name (index : LineIndex) (tracked : Bool) (part : Name) :
    LooksUp (name index tracked part) (part.ident.toList.map index.leafSite) := by
  unfold name
  cases part.ident with
  | none => exact looksUp_pure none
  | some leaf =>
    exact (looksUp_trackIf _ _).after fun _ => (looksUp_resolve _).before fun _ => looksUp_pure _

private theorem looksUp_access (receiver : Option SymbolType) (site : Site) (called : Bool) :
    LooksUp (access receiver site called) [] := by
  unfold access
  split
  · exact looksUp_pure _
  · refine looksUp_table.after fun table => ?_
    split
    · split <;> exact looksUp_pure _
    · split
      · exact (looksUp_report _).after fun _ => looksUp_pure _
      · exact (looksUp_pure _).after fun _ => looksUp_pure _
    · exact looksUp_pure _

private theorem looksUp_call (callee : Callee) (arguments : List CallArgument) :
    LooksUp (call callee arguments) [] := by
  unfold call
  refine looksUp_table.after fun table => ?_
  split
  · exact (looksUp_report _).after fun _ => looksUp_pure _
  · split
    · exact (looksUp_report _).after fun _ => looksUp_pure _
    · exact (looksUp_pure _).after fun _ => looksUp_pure _
  · exact looksUp_pure _

theorem looksUp_defineLoopTarget (line : Nat) (target iterable : Option Expr)
    (iterated : Option SymbolType) : LooksUp (defineLoopTarget line target iterable iterated) [] := by
  unfold defineLoopTarget
  split
  · exact looksUp_pure ()
  · exact looksUp_table.after fun _ => looksUp_defineTarget _ _ _

end Parts

section Sites

variable (index : LineIndex) (role : Role)

@[simp] theorem sitesOf_nil : index.sitesOf role [] = [] := rfl

@[simp] theorem sitesOf_append (mentions others : List Mention) :
    index.sitesOf role (mentions ++ others) = index.sitesOf role mentions ++ index.sitesOf role others := by
  simp [LineIndex.sitesOf, Mention.ofRole]

variable {role}

theorem sitesOf_eq_nil {given : Role} {mentions : List Mention} (h : OfRole given mentions)
    (hrole : role ≠ given) (hsilent : role.silent = false) : index.sitesOf role mentions = [] := by
  rw [LineIndex.sitesOf, h.ofRole_eq_nil hrole hsilent]
  rfl

theorem sitesOf_silent {given : Role} {mentions : List Mention} (h : OfRole given mentions)
    (hgiven : given.silent = true) (hrole : role.silent = false) : index.sitesOf role mentions = [] := by
  refine sitesOf_eq_nil index h ?_ hrole
  rintro rfl
  rw [hgiven] at hrole
  cases hrole

@[simp] theorem sitesOf_name (part : Name) :
    index.sitesOf role (part.mentions role) = part.ident.toList.map index.leafSite := by
  unfold LineIndex.sitesOf Mention.ofRole Name.mentions
  cases part.ident <;> simp

end Sites

section Expressions

variable (index : LineIndex) {role : Role}

mutual

private theorem looksUp_expr (h : role.silent = false) (line : Nat) (tracked : Bool) (e : Expr) :
    LooksUp (expr index line tracked e) (index.sitesOf role (e.mentions role)) := by
  have hinside := Role.inside_of_not_silent h
  match e with
  | .name part =>
    rw [expr, mentions, sitesOf_name]
    exact (looksUp_name index tracked part).before fun _ => looksUp_pure _
  | .literal _ _ | .chain _ none _ | .parenthesized _ none =>
    rw [expr, mentions]
    exact looksUp_pure _
  | .chain _ (some atom) trailers =>
    have hatom := looksUp_expr h line false atom
    cases atom with
    | name part =>
      rw [expr, mentions]
      unfold Inference.name
      cases part.ident with
      | none =>
        simp only [pure_bind]
        exact looksUp_pure _
      | some leaf =>
        simp only [bind_assoc, pure_bind, hinside]
        refine (looksUp_trackIf _ _).after fun _ => ?_
        have hboth := (looksUp_resolve (index.leafSite leaf)).bind fun type =>
          looksUp_chain h line tracked (.ofName type (index.leafSite leaf)) trailers
        simpa [LineIndex.sitesOf, Mention.ofRole] using hboth
    | _ =>
      rw [expr, mentions, hinside, sitesOf_append]
      · exact hatom.bind fun _ => looksUp_chain h line tracked _ trailers
      · simp
      · simp
  | .binary _ operator left right =>
    rw [expr, mentions, hinside, sitesOf_append]
    refine (looksUp_optional h line left).bind fun _ => ?_
    refine (looksUp_optional h line right).before fun _ => ?_
    split <;> exact looksUp_pure _
  | .unary _ _ operand =>
    rw [expr, mentions, hinside]
    exact (looksUp_optional h line operand).before fun _ => looksUp_pure _
  | .yield _ value =>
    rw [expr, mentions, hinside]
    exact (looksUp_optional h line value).before fun _ => looksUp_pure _
  | .parenthesized _ (some inner) =>
    rw [expr, mentions]
    exact looksUp_expr h line tracked inner
  | .list _ items | .expressionList _ items =>
    rw [expr, mentions]
    exact (looksUp_exprs h line items).before fun _ => looksUp_pure _
  | .dictionary _ items | .conditional _ items =>
    rw [expr, mentions, hinside]
    exact (looksUp_exprs h line items).before fun _ => looksUp_pure _
  | .lambda _ none body =>
    rw [expr, mentions, hinside]
    refine LooksUp.before (.isolated ?_) fun _ => looksUp_pure _
    refine (looksUp_defineAll _ _ _).after fun _ => ?_
    exact (looksUp_optional h line body).before fun _ => looksUp_pure _
  | .lambda _ (some ⟨_, items⟩) body =>
    rw [expr, mentions, hinside, sitesOf_append]
    refine (looksUp_defaults h line items).bind fun _ => ?_
    refine LooksUp.before (.isolated ?_) fun _ => looksUp_pure _
    refine (looksUp_defineAll _ _ _).after fun _ => ?_
    exact (looksUp_optional h line body).before fun _ => looksUp_pure _
  | .comprehension _ elements clauses _ _ =>
    rw [expr, mentions, hinside, sitesOf_append]
    refine LooksUp.before (.isolated ?_) fun _ => looksUp_pure _
    exact (looksUp_generators h line clauses).bind fun _ => looksUp_exprs h line elements

theorem looksUp_optional (h : role.silent = false) (line : Nat) (e : Option Expr) :
    LooksUp (optional index line e) (index.sitesOf role (optionalMentions role e)) := by
  match e with
  | none =>
    rw [optional]
    exact looksUp_pure _
  | some e =>
    rw [optional]
    exact looksUp_expr h line false e

theorem looksUp_exprs (h : role.silent = false) (line : Nat) (items : List Expr) :
    LooksUp (exprs index line items) (index.sitesOf role (exprMentions role items)) := by
  match items with
  | [] =>
    rw [exprs]
    exact looksUp_pure _
  | e :: rest =>
    rw [exprs, exprMentions, sitesOf_append]
    exact (looksUp_expr h line false e).bind fun _ => looksUp_exprs h line rest

private theorem looksUp_chain (h : role.silent = false) (line : Nat) (tracked : Bool) (value : Value)
    (trailers : List Trailer) :
    LooksUp (chain index line tracked value trailers)
      (index.sitesOf role (trailerMentions role trailers)) := by
  match trailers with
  | [] =>
    rw [chain]
    exact looksUp_pure _
  | .attribute _ part :: rest =>
    rw [chain, trailerMentions, sitesOf_append, sitesOf_silent index (ofRole_names .other part) rfl h,
      List.nil_append]
    split
    · exact looksUp_chain h line tracked _ rest
    · refine (looksUp_trackIf _ _).after fun _ => (looksUp_access _ _ _).after fun _ => ?_
      exact looksUp_chain h line tracked _ rest
  | .arguments _ items :: rest =>
    rw [chain, trailerMentions, sitesOf_append]
    refine (looksUp_arguments h line items).bind fun _ => (looksUp_trackIf _ _).after fun _ => ?_
    exact (looksUp_call _ _).after fun _ => looksUp_chain h line tracked _ rest
  | .subscripts _ items :: rest =>
    rw [chain, trailerMentions, sitesOf_append]
    refine (looksUp_subscripts h line items).bind fun _ => (looksUp_trackIf _ _).after fun _ => ?_
    exact looksUp_table.after fun _ => looksUp_chain h line tracked _ rest

private theorem looksUp_arguments (h : role.silent = false) (line : Nat) (items : List Argument) :
    LooksUp (arguments index line items) (index.sitesOf role (argumentMentions role items)) := by
  match items with
  | [] =>
    rw [arguments]
    exact looksUp_pure _
  | ⟨_, keyword, _, value⟩ :: rest =>
    rw [arguments, argumentMentions, sitesOf_append, sitesOf_append,
      sitesOf_silent index (ofRole_names .other keyword) rfl h, List.nil_append]
    refine (looksUp_optional h line value).bind fun _ => ?_
    exact (looksUp_arguments h line rest).before fun _ => looksUp_pure _

private theorem looksUp_subscripts (h : role.silent = false) (line : Nat) (items : List Subscript) :
    LooksUp (subscripts index line items) (index.sitesOf role (subscriptMentions role items)) := by
  match items with
  | [] =>
    rw [subscripts]
    exact looksUp_pure _
  | ⟨_, parts⟩ :: rest =>
    rw [subscripts, subscriptMentions, sitesOf_append]
    exact (looksUp_exprs h line parts).bind fun _ => looksUp_subscripts h line rest

theorem looksUp_defaults (h : role.silent = false) (line : Nat) (items : List Parameter) :
    LooksUp (defaults index line items) (index.sitesOf role (parameterMentions role items)) := by
  match items with
  | [] =>
    rw [defaults]
    exact looksUp_pure _
  | ⟨_, part, hint, none, _⟩ :: rest =>
    rw [defaults, parameterMentions, holderMentions]
    simp only [sitesOf_append, sitesOf_silent index (ofRole_names .other part) rfl h,
      sitesOf_silent index (ofRole_holder .other hint) rfl h, sitesOf_nil, List.nil_append]
    exact looksUp_defaults h line rest
  | ⟨_, part, hint, some ⟨_, value⟩, _⟩ :: rest =>
    rw [defaults, parameterMentions, holderMentions]
    simp only [sitesOf_append, sitesOf_silent index (ofRole_names .other part) rfl h,
      sitesOf_silent index (ofRole_holder .other hint) rfl h, List.nil_append]
    exact (looksUp_optional h line value).bind fun _ => looksUp_defaults h line rest

private theorem looksUp_generators (h : role.silent = false) (line : Nat) (clauses : List Clause) :
    LooksUp (generators index line clauses) (index.sitesOf role (clauseMentions role clauses)) := by
  match clauses with
  | [] =>
    rw [generators]
    exact looksUp_pure _
  | .forClause _ target iterable :: rest =>
    rw [generators, clauseMentions, sitesOf_append, sitesOf_append,
      sitesOf_silent index (ofRole_optional role.target target) role.silent_target h, List.append_nil]
    refine (looksUp_optional h line iterable).bind fun _ => ?_
    exact (looksUp_defineLoopTarget _ _ _ _).after fun _ => looksUp_generators h line rest
  | .ifClause _ condition :: rest =>
    rw [generators, clauseMentions, sitesOf_append]
    exact (looksUp_optional h line condition).bind fun _ => looksUp_generators h line rest

end

end Expressions

/-- Whatever the state, the part of a walk looks up all names that are used, each once and in this order,
and besides only such as stand in declarations. -/
def LooksThrough (index : LineIndex) (part : Inference Unit) (mentions : List Mention) : Prop :=
  ∀ state, ∃ sites, (part.run state).2.uses.map Use.site = state.uses.map Use.site ++ sites ∧
    (index.sitesOf .used mentions).Sublist sites ∧ sites.Sublist (index.lookable mentions)

section Statements

variable {index : LineIndex} {part : Inference Unit} {mentions more : List Mention}

private theorem sublist_lookable {role : Role} (h : role.silent = false) (mentions : List Mention) :
    (index.sitesOf role mentions).Sublist (index.lookable mentions) :=
  (Mention.ofRole_sublist h mentions).map index.leafSite

/-- All names that are used are looked up, and no others. -/
theorem LooksUp.through (h : LooksUp part (index.sitesOf .used mentions)) :
    LooksThrough index part mentions :=
  fun state => ⟨_, h state, List.Sublist.refl _, sublist_lookable rfl mentions⟩

namespace LooksThrough

theorem bind {next : Unit → Inference Unit} (h : LooksThrough index part mentions)
    (hnext : ∀ value, LooksThrough index (next value) more) :
    LooksThrough index (part >>= next) (mentions ++ more) := by
  intro state
  obtain ⟨sites, hsites, hleast, hmost⟩ := h state
  obtain ⟨later, hlater, hnextLeast, hnextMost⟩ := hnext () (part.run state).2
  refine ⟨sites ++ later, ?_, ?_, ?_⟩
  · rw [hsites, List.append_assoc] at hlater
    exact hlater
  · rw [sitesOf_append]
    exact hleast.append hnextLeast
  · rw [LineIndex.lookable, Mention.lookable, List.filter_append, List.map_append, List.map_append]
    exact hmost.append hnextMost

/-- A step before that looks nothing up. -/
theorem next {α : Type} {first : Inference α} {next : α → Inference Unit} (h : LooksUp first [])
    (hnext : ∀ value, LooksThrough index (next value) mentions) :
    LooksThrough index (first >>= next) mentions := by
  intro state
  obtain ⟨sites, hsites, hbetween⟩ := hnext (first.run state).1 (first.run state).2
  refine ⟨sites, ?_, hbetween⟩
  have hfirst := h state
  rw [List.append_nil] at hfirst
  rw [hfirst] at hsites
  exact hsites

/-- A step before that looks up names that are used. -/
theorem uses {α : Type} {first : Inference α} {next : α → Inference Unit}
    (h : LooksUp first (index.sitesOf .used mentions))
    (hnext : ∀ value, LooksThrough index (next value) more) :
    LooksThrough index (first >>= next) (mentions ++ more) := by
  intro state
  obtain ⟨sites, hsites, hleast, hmost⟩ := hnext (first.run state).1 (first.run state).2
  refine ⟨index.sitesOf .used mentions ++ sites, ?_, ?_, ?_⟩
  · rw [h state, List.append_assoc] at hsites
    exact hsites
  · rw [sitesOf_append]
    exact hleast.append_left _
  · rw [LineIndex.lookable, Mention.lookable, List.filter_append, List.map_append, List.map_append]
    exact (sublist_lookable rfl mentions).append hmost

/-- Names that are never looked up may be left out. -/
theorem before {role : Role} (h : LooksThrough index part mentions) (hsilent : OfRole role more)
    (hrole : role.silent = true) : LooksThrough index part (mentions ++ more) := by
  have hrest : LooksThrough index (pure ()) more := LooksUp.through (by
    rw [sitesOf_silent index hsilent hrole rfl]
    exact looksUp_pure ())
  have hboth := h.bind fun _ => hrest
  rwa [bind_pure_unit] at hboth

theorem after {role : Role} (h : LooksThrough index part mentions) (hsilent : OfRole role more)
    (hrole : role.silent = true) : LooksThrough index part (more ++ mentions) := by
  have hrest : LooksThrough index (pure ()) more := LooksUp.through (by
    rw [sitesOf_silent index hsilent hrole rfl]
    exact looksUp_pure ())
  have hboth := hrest.bind fun _ => h
  rwa [pure_bind] at hboth

theorem within {name : String} {opened closed : Nat} (h : LooksThrough index part mentions) :
    LooksThrough index (within name opened closed part) mentions := by
  intro state
  rw [run_within, uses_close]
  exact h _

end LooksThrough

section Heads

variable (index) (line : Nat)

private theorem looksUp_hinted (hint : Option Holder) : LooksUp (hinted hint) [] :=
  looksUp_table.after fun _ => looksUp_pure _

private theorem looksUp_target (e : Expr) :
    LooksUp (target index line e) (index.sitesOf .used (targetMentions e)) := by
  have hbound : index.sitesOf .used (e.mentions .bound) = [] :=
    sitesOf_silent index (ofRole_mentions .bound e) rfl rfl
  unfold target targetMentions
  cases e with
  | name part =>
    rw [hbound]
    exact looksUp_pure ()
  | expressionList _ _ | list _ _ | parenthesized _ _ =>
    rw [hbound]
    dsimp only
    split
    · exact (looksUp_track _).after fun _ => looksUp_defineTarget _ _ _
    · exact (looksUp_pure ()).after fun _ => looksUp_defineTarget _ _ _
  | _ => exact (looksUp_expr index rfl line true _).before fun _ => looksUp_pure _

private theorem looksUp_targets (items : List Expr) :
    LooksUp (targets index line items) (index.sitesOf .used (items.flatMap targetMentions)) := by
  induction items with
  | nil => exact looksUp_pure ()
  | cons first rest ih =>
    rw [List.flatMap_cons, sitesOf_append]
    refine (looksUp_track _).after fun _ => (looksUp_target index line first).bind fun _ => ?_
    exact (looksUp_track _).after fun _ => ih

private theorem looksUp_assignment (hint : Option SymbolType) (left : List Expr) (value : Expr) :
    LooksUp (assignment index line hint left value)
      (index.sitesOf .used (left.flatMap targetMentions ++ value.mentions .used)) := by
  rw [sitesOf_append]
  refine (looksUp_targets index line left).bind fun _ => (looksUp_track _).after fun _ => ?_
  refine (looksUp_expr index rfl line true value).before fun walked => looksUp_finish.after ?_
  intro finished
  cases finished with
  | none => exact looksUp_pure ()
  | some finished => exact looksUp_table.after fun _ => looksUp_defineAll _ _ _

private theorem looksThrough_declaration (items : List Expr) (hint : Option Holder) :
    LooksThrough index (do
      match ← hinted hint with
      | some type => items.forM fun item => defineTarget item type line
      | none => exprs index line items) (exprMentions .declared items) := by
  intro state
  have hleast : index.sitesOf .used (exprMentions .declared items) = [] :=
    sitesOf_eq_nil index (ofRole_exprs .declared items) nofun rfl
  rw [hleast]
  have hboth (known : Option SymbolType) (state : State) : ∃ sites,
      ((match known with
        | some type => items.forM fun item => defineTarget item type line
        | none => exprs index line items : Inference Unit).run state).2.uses.map Use.site =
          state.uses.map Use.site ++ sites ∧
        sites.Sublist (index.lookable (exprMentions .declared items)) := by
    cases known with
    | some type =>
      exact ⟨[], looksUp_forM (fun item => looksUp_defineTarget item type line) items state,
        List.nil_sublist _⟩
    | none => exact ⟨_, looksUp_exprs index rfl line items state, sublist_lookable rfl _⟩
  obtain ⟨sites, hsites, hmost⟩ := hboth ((hinted hint).run state).1 ((hinted hint).run state).2
  exact ⟨sites, hsites, List.nil_sublist _, hmost⟩

theorem looksThrough_expressions (items : List Expr) (assigns augments : Bool) (hint : Option Holder) :
    LooksThrough index (expressions index line items assigns augments hint)
      (expressionMentions items assigns augments hint) := by
  unfold expressions expressionMentions
  cases augments with
  | true => exact (looksUp_exprs index rfl line items).through
  | false =>
    cases assigns with
    | true =>
      refine LooksUp.through ((looksUp_hinted hint).after fun known => ?_)
      simp only [Bool.false_eq_true, if_false, if_true]
      cases hlast : items.getLast? with
      | none =>
        rw [List.getLast?_eq_none_iff.mp hlast]
        exact looksUp_pure ()
      | some value => exact looksUp_assignment index line known _ value
    | false =>
      simp only [Bool.false_eq_true, if_false]
      cases hname : hint.bind Holder.typeName? with
      | some typeName => exact looksThrough_declaration index line items hint
      | none =>
        simp only [hinted, hname, Option.bind_none, bind_assoc, pure_bind]
        exact (looksUp_table.after fun _ => looksUp_exprs index rfl line items).through

theorem looksUp_types (items : List (Option Expr)) :
    LooksUp (types index line items)
      (index.sitesOf .used (items.flatMap (optionalMentions .used))) := by
  induction items with
  | nil => exact looksUp_pure _
  | cons e rest ih =>
    rw [List.flatMap_cons, sitesOf_append]
    exact (looksUp_optional index rfl line e).bind fun _ => ih.before fun _ => looksUp_pure _

theorem looksUp_parameters (owner : Option ClassType) (items : List Parameter) :
    LooksUp (parameters line owner items) [] := by
  induction items generalizing owner with
  | nil => exact looksUp_pure ()
  | cons parameter rest ih =>
    unfold parameters
    split
    · split
      · split
        · exact (looksUp_hinted _).after fun _ => (looksUp_define _ _ _).after fun _ => ih none
        · exact (looksUp_define _ _ _).after fun _ => ih none
      · exact (looksUp_hinted _).after fun _ => (looksUp_define _ _ _).after fun _ => ih none
    · exact ih none

theorem looksUp_caughtName (part : Option Name) (caught : Option SymbolType) :
    LooksUp (caughtName line part caught) [] := by
  unfold caughtName
  split
  · exact looksUp_define _ _ _
  · exact looksUp_pure ()

theorem looksUp_withItems (items : List WithItem) :
    LooksUp (withItems index line items) (index.sitesOf .used (items.flatMap WithItem.mentions)) := by
  induction items with
  | nil => exact looksUp_pure ()
  | cons item rest ih =>
    rw [List.flatMap_cons, sitesOf_append, WithItem.mentions, sitesOf_append,
      sitesOf_silent index (ofRole_optional .bound item.target) rfl rfl, List.append_nil]
    refine (looksUp_optional index rfl line item.value).bind fun _ => ?_
    split
    · exact (looksUp_defineTarget _ _ _).after fun _ => ih
    · exact ih

end Heads

end Statements

end Inference

end QuantumScript
