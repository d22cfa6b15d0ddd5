import QuantumScript.Analysis
import QuantumScript.Proofs.Ordering.Hints
import QuantumScript.Proofs.Ordering.Hoisting
import QuantumScript.Proofs.Seams.Folds
/-!
# Scripts of definitions in any order

A script of definitions is read as the definitions that its pieces are read as, at other places. Hoisting
binds their names before anything is looked up. So the names that are found missing do not depend on the
order of the pieces.
-/

namespace QuantumScript

open Syntax

/-- The statements at the top level that a text is read as, if it stands at an offset. -/
def Ast.statementsAt (start : Nat) (text : List Char) : List Statement :=
  (Part.ofTrees start (parse text).tree.children).filterMap Part.statement?

/-- The statement is the same but for where it stands. -/
def Ast.Statement.Moved (s item : Statement) : Prop := ∃ f, item = s.place (.move f)

namespace Ast

variable {text tail : List Char}

private theorem statements_ofText (path : Option String) (text : List Char) :
    (Source.ofText path text).script.statements = statementsAt 0 text := rfl

theorem statementsAt_append (htext : ClosesLine text) (htail : BeginsLine tail) (start : Nat) :
    statementsAt start (text ++ tail) =
      statementsAt start text ++ statementsAt (start + Text.byteLength text) tail := by
  rw [statementsAt, children_append htext htail, Part.ofTrees_append, byteLength_children,
    List.filterMap_append]
  rfl

private theorem moved_statementsAt (start : Nat) (text : List Char) :
    List.Forall₂ Statement.Moved (statementsAt 0 text) (statementsAt start text) := by
  have hmove : Part.ofTrees (start + 0) (parse text).tree.children =
      (Part.ofTrees 0 (parse text).tree.children).map (Part.place (.move (start + ·))) :=
    Part.ofTrees_move _ 0 _ fun more _ => by rw [Nat.zero_add, Nat.add_zero]
  rw [statementsAt, statementsAt, ← Nat.add_zero start, hmove, Part.filterMap_place _ (Part.statement?_place _),
    List.forall₂_map_right_iff, List.forall₂_same]
  exact fun s _ => ⟨_, rfl⟩

end Ast

theorem Syntax.BeginsLine.append {text tail : List Char} (h : BeginsLine text) (hends : ClosesLine text)
    (htail : BeginsLine tail) : BeginsLine (text ++ tail) := by
  intro first hmem
  rw [Lexeme.ofText_append hends.lexemes, List.head?_append] at hmem
  rcases Option.or_eq_some_iff.mp hmem with hfirst | ⟨_, hfirst⟩
  · exact h first hfirst
  · exact htail first hfirst

/-- The text is made of complete lines and is read as one definition of a function or class with a name. In
its body no name is declared with a hint and without a value. -/
structure IsDefinition (text : List Char) : Prop where
  begins : BeginsLine text
  closes : ClosesLine text
  reads : ∃ s name, (Source.ofText none text).script.statements = [s] ∧ s.definedName? = some name ∧
    ∀ t ∈ s.nested, t.isBare = false

/-- The names that definitions at the top level of a text define. -/
def definedNames (text : List Char) : List String :=
  (Source.ofText none text).script.statements.filterMap Ast.Statement.definedName?

/-- That a text is a definition shows in its first lexeme, its last one, the head of its last line and what
it is read as. -/
private theorem isDefinition_of_lines {text : List Char} (first last : Lexeme) (head : Token) (name : String)
    (hfirst : (Lexeme.ofText text).head? = some first)
    (hbegins : Layout.Solid (Token.ofLexeme first) ∧ (Token.ofLexeme first).kind ∉ clauseWords)
    (hlast : (Lexeme.ofText text).getLast? = some last) (hends : last.kind = .lineBreak)
    (hmargin : (Layout.ofText text).atLineStart = true ∧ (Layout.ofText text).width = 0)
    (hheads : (Token.lineHeads true (Token.ofText text)).getLast? = some head) (hhead : head.kind ≠ .symbol .at)
    (hreads : ((Source.ofText none text).script.statements.map fun s =>
      (s.definedName?, s.nested.any Ast.Statement.isBare)) = [(some name, false)]) :
    IsDefinition text ∧ definedNames text = [name] := by
  obtain ⟨s, hs, hpair⟩ := List.map_eq_singleton_iff.mp hreads
  obtain ⟨hname, hbare⟩ := Prod.mk.inj hpair
  refine ⟨⟨fun other hmem => ?_, ⟨fun other hmem => ?_, hmargin.1, hmargin.2, fun other hmem => ?_⟩,
    s, name, hs, hname, fun t hmem => by simpa using List.any_eq_false.mp hbare t hmem⟩, ?_⟩
  · rw [hfirst] at hmem
    exact Option.some.inj hmem ▸ hbegins
  · rw [hlast] at hmem
    exact Option.some.inj hmem ▸ hends
  · rw [hheads] at hmem
    exact Option.some.inj hmem ▸ hhead
  · rw [definedNames, hs, List.filterMap_cons_some hname, List.filterMap_nil]

section Pieces

variable {pieces : List (List Char)}

private theorem begins_flatten (h : ∀ piece ∈ pieces, IsDefinition piece) : BeginsLine pieces.flatten := by
  induction pieces with
  | nil =>
    intro first hmem
    rw [List.flatten_nil, Lexeme.ofText] at hmem
    cases hmem
  | cons piece rest ih =>
    obtain ⟨hpiece, hrest⟩ := List.forall_mem_cons.mp h
    exact hpiece.begins.append hpiece.closes (ih hrest)

private theorem moved_flatten (h : ∀ piece ∈ pieces, IsDefinition piece) (start : Nat) :
    List.Forall₂ Ast.Statement.Moved (pieces.flatMap (Ast.statementsAt 0))
      (Ast.statementsAt start pieces.flatten) := by
  induction pieces generalizing start with
  | nil =>
    rw [List.flatten_nil, Ast.statementsAt, children_nil]
    exact .nil
  | cons piece rest ih =>
    obtain ⟨hpiece, hrest⟩ := List.forall_mem_cons.mp h
    rw [List.flatten_cons, List.flatMap_cons,
      Ast.statementsAt_append hpiece.closes (begins_flatten hrest)]
    exact List.rel_append (Ast.moved_statementsAt start piece) (ih hrest _)

private theorem map_moved {α : Type} {pick other : Ast.Statement → α}
    (hpick : ∀ (g : Ast.Placing) s, other (s.place g) = pick s) {definitions items : List Ast.Statement}
    (h : List.Forall₂ Ast.Statement.Moved definitions items) : items.map other = definitions.map pick := by
  induction h with
  | nil => rfl
  | cons hitem _ ih =>
    obtain ⟨f, rfl⟩ := hitem
    rw [List.map_cons, List.map_cons, hpick, ih]

end Pieces

section Analyses

open SymbolTable Inference

/-- The names that an analysis finds missing, of symbols and of types. -/
def Analysis.namings (analysis : Analysis) : List Finding := analysis.diagnostics.filterMap Diagnostic.naming?

/-- The kinds that are bound when definitions have been hoisted. -/
def hoistedKinds (builtins : Bool) (definitions : List Ast.Statement) : Set (String × Bool) :=
  {kind | kind ∈ definitions.filterMap Ast.Statement.definedKind?} ∪ (initial builtins).kinds

private theorem distinct_hoistedKinds (builtins : Bool) {definitions : List Ast.Statement}
    (hnodup : (definitions.filterMap Ast.Statement.definedName?).Nodup)
    (hfresh : ∀ name ∈ definitions.filterMap Ast.Statement.definedName?,
      name ∉ Builtins.bindings.map Binding.name) : Distinct (hoistedKinds builtins definitions) := by
  let all := definitions.filterMap Ast.Statement.definedKind? ++ Builtins.bindings.map Binding.kind
  have hnames : all.map Prod.fst =
      definitions.filterMap Ast.Statement.definedName? ++ Builtins.bindings.map Binding.name := by
    have hname (s : Ast.Statement) : s.definedKind?.map Prod.fst = s.definedName? := by
      rw [Ast.Statement.definedKind?, Option.map_map]
      exact Option.map_id'
    simp only [all, List.map_append, List.map_filterMap, hname, List.map_map]
    rfl
  have hall : (all.map Prod.fst).Nodup := by
    rw [hnames]
    exact hnodup.append nodup_builtins fun name hmem hbuiltin => hfresh name hmem hbuiltin
  have hmem {kind : String × Bool} (h : kind ∈ hoistedKinds builtins definitions) : kind ∈ all :=
    List.mem_append.mpr (h.imp id (kinds_initial builtins kind))
  intro name hclass hother
  have hsame := List.inj_on_of_nodup_map hall (hmem hclass) (hmem hother) rfl
  cases hsame

/-- The names that the hints of definitions name. -/
def hintNames (definitions : List Ast.Statement) : List String :=
  definitions.flatMap fun s => (s.hints (.ofText [])).map Hint.typeName

section Pieces

variable (builtins : Bool) (path : Option String) {pieces : List (List Char)}
  (h : ∀ piece ∈ pieces, IsDefinition piece)

include h

private theorem defined_of_mem {s : Ast.Statement} (hmem : s ∈ pieces.flatMap (Ast.statementsAt 0)) :
    (∃ name, s.definedName? = some name) ∧ ∀ t ∈ s.nested, t.isBare = false := by
  obtain ⟨piece, hpiece, hs⟩ := List.mem_flatMap.mp hmem
  obtain ⟨own, name, hown, hname, hbare⟩ := (h piece hpiece).reads
  rw [Ast.statements_ofText] at hown
  rw [hown, List.mem_singleton] at hs
  exact hs ▸ ⟨⟨name, hname⟩, hbare⟩

private theorem hoisted_flatten :
    let source := Source.ofText path pieces.flatten
    let hoisted := Hoisting.run source.index source.script (initial builtins)
    IsGlobal hoisted ∧ Coherent hoisted.scopes hoisted.live ∧
      hoisted.kinds = hoistedKinds builtins (pieces.flatMap (Ast.statementsAt 0)) := by
  intro source hoisted
  have hmap : source.script.statements.map Ast.Statement.definedKind? =
      (pieces.flatMap (Ast.statementsAt 0)).map Ast.Statement.definedKind? :=
    map_moved Ast.Statement.definedKind?_place (moved_flatten h 0)
  have hkind : ∀ item ∈ source.script.statements, item.definedKind?.isSome = true := by
    have hall : ∀ kind ∈ source.script.statements.map Ast.Statement.definedKind?, kind.isSome = true := by
      rw [hmap, List.forall_mem_map]
      intro s hmem
      obtain ⟨⟨name, hname⟩, -⟩ := defined_of_mem h hmem
      rw [Ast.Statement.definedKind?, hname, Option.isSome_map, Option.isSome_some]
    exact List.forall_mem_map.mp hall
  have hfilter (items : List Ast.Statement) : items.filterMap Ast.Statement.definedKind? =
      (items.map Ast.Statement.definedKind?).filterMap id := by
    rw [List.filterMap_map]
    rfl
  obtain ⟨hglobal, hkinds⟩ := kinds_foldl_hoist (isGlobal_initial builtins) source.index hkind
  rw [hfilter, hmap, ← hfilter] at hkinds
  exact ⟨hglobal, (Hoisting.binds_run source.index source.script _).reaches.coherent (coherent_initial builtins),
    hkinds⟩

/-- The names that are found missing in definitions, told from any table with the kinds that hoisting
makes. -/
private theorem namings_flatten {table : SymbolTable} (hglobal : IsGlobal table)
    (hcoherent : Coherent table.scopes table.live)
    (hkinds : table.kinds = hoistedKinds builtins (pieces.flatMap (Ast.statementsAt 0)))
    (hdistinct : Distinct table.kinds) :
    (Analysis.ofSource (.ofText path pieces.flatten) (initial builtins)).namings =
      Hoisting.unknown table (hintNames (pieces.flatMap (Ast.statementsAt 0))) ++
        (pieces.flatMap (Ast.statementsAt 0)).flatMap (missing table) := by
  let definitions := pieces.flatMap (Ast.statementsAt 0)
  let source := Source.ofText path pieces.flatten
  let items := source.script.statements
  let hoisted := Hoisting.run source.index source.script (initial builtins)
  have hitems : List.Forall₂ Ast.Statement.Moved definitions items := moved_flatten h 0
  obtain ⟨hopened, hreached, hrun⟩ :
      IsGlobal hoisted ∧ Coherent hoisted.scopes hoisted.live ∧ hoisted.kinds = hoistedKinds builtins definitions :=
    hoisted_flatten builtins path h
  have hsame : hoisted.kinds = table.kinds := hrun.trans hkinds.symm
  -- The warnings are those of the hints, wherever these stand.
  have hwarned : (Hoisting.warnings source.index source.script hoisted).filterMap Diagnostic.naming? =
      Hoisting.unknown table (hintNames definitions) := by
    have hnames : (items.flatMap (Ast.Statement.hints source.index)).map Hint.typeName = hintNames definitions := by
      rw [List.map_flatMap, hintNames, List.flatMap_def, List.flatMap_def]
      exact congrArg List.flatten
        (map_moved (fun g s => s.names_hints_place g (.ofText []) source.index) hitems)
    rw [Hoisting.namings_warnings, hnames]
    refine Hoisting.unknown_congr (fun name => ?_) _
    rw [isSome_resolveType? hopened (hsame ▸ hdistinct), isSome_resolveType? hglobal hdistinct, hsame]
  -- The walk begins with the outline of the table given.
  have hwalked : ((statements source.index none items).run (.start hoisted)).2.namings =
      definitions.flatMap (missing table) := by
    have houtline : table.outline = hoisted.outline := by
      rw [outline_eq_kinds hglobal, outline_eq_kinds hopened, hsame]
    refine namings_statements source.index (outline_eq_kinds hglobal) hitems (fun s hmem => ?_)
      (fun s hmem => (defined_of_mem h hmem).2) ⟨hcoherent, hreached, houtline, fun _ => ⟨rfl, rfl⟩⟩
    obtain ⟨⟨name, hname⟩, -⟩ := defined_of_mem h hmem
    refine ⟨name, ⟨(name, s.isClass), ?_, rfl⟩, hname⟩
    rw [hkinds]
    refine .inl (List.mem_filterMap.mpr ⟨s, hmem, ?_⟩)
    rw [Ast.Statement.definedKind?, hname, Option.map_some]
  have hsyntactic : source.diagnostics.filterMap Diagnostic.naming? = [] := by
    rw [Source.diagnostics, List.filterMap_map]
    exact List.filterMap_eq_nil_iff.mpr fun _ _ => rfl
  have hall : (Analysis.ofSource source (initial builtins)).namings =
      (source.diagnostics ++ Hoisting.warnings source.index source.script hoisted ++
        ((statements source.index none items).run (.start hoisted)).2.diagnostics).filterMap
          Diagnostic.naming? := by
    rw [Analysis.namings, Analysis.ofSource, State.ofScript_eq]
  rw [hall, List.filterMap_append, List.filterMap_append, hsyntactic, List.nil_append, hwarned]
  exact congrArg _ hwalked

end Pieces

/-- Definitions may stand in any order: the analysis finds the same names missing, of symbols and of types,
each as often. The names that are defined differ from each other and from the builtins, since of two bindings
of one name the order would decide which of them is seen. -/
theorem namings_perm (builtins : Bool) (path : Option String) {pieces others : List (List Char)}
    (hperm : pieces.Perm others) (h : ∀ piece ∈ pieces, IsDefinition piece)
    (hnodup : (pieces.flatMap definedNames).Nodup)
    (hfresh : ∀ name ∈ pieces.flatMap definedNames, name ∉ Builtins.bindings.map Binding.name) :
    ((Analysis.ofSource (.ofText path pieces.flatten) (initial builtins)).namings).Perm
      (Analysis.ofSource (.ofText path others.flatten) (initial builtins)).namings := by
  let definitions := pieces.flatMap (Ast.statementsAt 0)
  let mixed := others.flatMap (Ast.statementsAt 0)
  have hmixed : definitions.Perm mixed := hperm.flatMap_right _
  have hnames : pieces.flatMap definedNames = definitions.filterMap Ast.Statement.definedName? :=
    List.filterMap_flatMap.symm
  rw [hnames] at hnodup hfresh
  obtain ⟨hglobal, hcoherent, hkinds⟩ := hoisted_flatten builtins path h
  have hdistinct := distinct_hoistedKinds builtins hnodup hfresh
  rw [← hkinds] at hdistinct
  have hsame : hoistedKinds builtins definitions = hoistedKinds builtins mixed := by
    have hset : {kind | kind ∈ definitions.filterMap Ast.Statement.definedKind?} =
        {kind | kind ∈ mixed.filterMap Ast.Statement.definedKind?} := by
      ext kind
      exact (hmixed.filterMap _).mem_iff
    rw [hoistedKinds, hset, hoistedKinds]
  rw [namings_flatten builtins path h hglobal hcoherent hkinds hdistinct,
    namings_flatten builtins path (fun piece hmem => h piece (hperm.mem_iff.mpr hmem)) hglobal hcoherent
      (hkinds.trans hsame) hdistinct]
  refine List.Perm.append ?_ (hmixed.flatMap_right _)
  exact ((hmixed.flatMap_right _).filter _).map _

private theorem isDefinition_function : IsDefinition "def f(a: A, b: B):\n  g(a, b)\n".toList ∧
    definedNames "def f(a: A, b: B):\n  g(a, b)\n".toList = ["f"] :=
  isDefinition_of_lines ⟨.word, "def".toList⟩ ⟨.lineBreak, ['\n']⟩ ⟨.name, "g".toList, none⟩ "f"
    (by cbv) ⟨by unfold Layout.Solid; decide, by decide⟩ (by cbv) rfl ⟨by cbv, by cbv⟩ (by cbv) (by decide)
    (by cbv)

private theorem isDefinition_class : IsDefinition "class A(C):\n  x = f(1)\n".toList ∧
    definedNames "class A(C):\n  x = f(1)\n".toList = ["A"] :=
  isDefinition_of_lines ⟨.word, "class".toList⟩ ⟨.lineBreak, ['\n']⟩ ⟨.name, "x".toList, none⟩ "A"
    (by cbv) ⟨by unfold Layout.Solid; decide, by decide⟩ (by cbv) rfl ⟨by cbv, by cbv⟩ (by cbv) (by decide)
    (by cbv)

/-- A function that names a class, and the class, which calls the function. -/
theorem namings_perm_class :
    (∀ piece ∈ ["def f(a: A, b: B):\n  g(a, b)\n".toList, "class A(C):\n  x = f(1)\n".toList],
      IsDefinition piece) ∧
    ((Analysis.ofSource (.ofText none ["def f(a: A, b: B):\n  g(a, b)\n".toList,
      "class A(C):\n  x = f(1)\n".toList].flatten) (initial true)).namings).Perm
    (Analysis.ofSource (.ofText none ["class A(C):\n  x = f(1)\n".toList,
      "def f(a: A, b: B):\n  g(a, b)\n".toList].flatten) (initial true)).namings := by
  obtain ⟨hfunction, hname⟩ := isDefinition_function
  obtain ⟨hclass, hother⟩ := isDefinition_class
  have hnames : ["def f(a: A, b: B):\n  g(a, b)\n".toList, "class A(C):\n  x = f(1)\n".toList].flatMap
      definedNames = ["f", "A"] := by
    rw [List.flatMap_cons, List.flatMap_singleton, hname, hother]
    rfl
  have h : ∀ piece ∈ ["def f(a: A, b: B):\n  g(a, b)\n".toList, "class A(C):\n  x = f(1)\n".toList],
      IsDefinition piece := List.forall_mem_cons.mpr ⟨hfunction, List.forall_mem_singleton.mpr hclass⟩
  exact ⟨h, namings_perm true none (.swap _ _ []) h (by rw [hnames]; decide) (by rw [hnames]; decide +kernel)⟩

end Analyses

end QuantumScript
