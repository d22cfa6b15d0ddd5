import QuantumScript.Proofs.Ordering.Scripts
import QuantumScript.Proofs.Reading.Imports
/-!
# Names of an import statement

A line that imports, wherever it stands in a script, is read without an error and binds what Python binds: the
new name where there is one, else the first component of the path or the imported name, on the line of the
statement. The exception is a line that names what it imports from by dots alone. It is reported as an error
and binds nothing.
-/

namespace QuantumScript

open Syntax

namespace Ast

section Lines

variable {text : List Char} {node : Tree} {ending : List Char}

private theorem children_line {first : Token} {rest : List Token} (htokens : Token.ofText text = first :: rest)
    (hsolid : Layout.Solid first)
    (hbare : (parse text).tree.bare = .node .file [node, .token .newline ending]) :
    ∃ tree others, (parse text).tree.children = tree :: others ∧ tree.bare = node ∧
      Tree.bareAll others = [.token .newline ending] := by
  have hleaves : Tree.leavesAll (parse text).tree.children = (first :: rest).map Token.entry :=
    htokens ▸ leavesAll_parseTokens _
  have hchildren : Tree.bareAll (parse text).tree.children = [node, .token .newline ending] :=
    (Tree.node.inj hbare).2
  cases hall : (parse text).tree.children with
  | nil =>
    rw [hall] at hchildren
    cases hchildren
  | cons tree others =>
    rw [hall] at hleaves hchildren
    cases htrivia : tree.isTrivia with
    | false =>
      rw [Tree.bareAll, htrivia, if_neg Bool.false_ne_true] at hchildren
      exact ⟨tree, others, rfl, (List.cons.inj hchildren).1, (List.cons.inj hchildren).2⟩
    | true =>
      cases tree with
      | node kind children => cases htrivia
      | token kind text =>
        have hkind : kind = first.kind := congrArg Prod.fst (List.cons.inj hleaves).1
        rw [Tree.isTrivia, hkind, hsolid.1] at htrivia
        cases htrivia

private theorem statementsAt_line {first : Token} {rest : List Token}
    (htokens : Token.ofText text = first :: rest)
    (hsolid : Layout.Solid first)
    (hbare : (parse text).tree.bare = .node .file [node, .token .newline ending]) (start : Nat) :
    (statementsAt start text).map (Statement.place .forget) = (Part.sense node).statement?.toList ∧
      ∀ s ∈ statementsAt start text, s.extent.span.start = start := by
  obtain ⟨tree, others, hchildren, htree, hothers⟩ := children_line htokens hsolid hbare
  have hnone (start : Nat) : (Part.ofTrees start others).filterMap Part.statement? = [] := by
    rw [← List.map_eq_nil_iff (f := Statement.place .forget),
      ← Part.filterMap_place _ (Part.statement?_place _), Part.ofTrees_forget,
      ← Part.filterMap_solid _ (fun _ _ => rfl), ← Part.senses_bareAll, hothers]
    rfl
  have hall : statementsAt start text = (Part.ofTree start tree).statement?.toList := by
    rw [statementsAt, hchildren, Part.ofTrees_cons, List.filterMap_cons, hnone]
    cases (Part.ofTree start tree).statement? <;> rfl
  have hplace := Part.statement?_place .forget (Part.ofTree start tree)
  rw [Part.ofTree_forget, ← Part.sense_bare, htree] at hplace
  rw [hall, hplace]
  refine ⟨by cases (Part.ofTree start tree).statement? <;> rfl, fun s hmem => ?_⟩
  have hstart := Part.start_ofTree start tree
  cases hpart : Part.ofTree start tree with
  | statement item =>
    rw [hpart] at hmem hstart
    obtain rfl : s = item := List.mem_singleton.mp hmem
    exact hstart
  | _ =>
    rw [hpart] at hmem
    cases hmem

end Lines

end Ast

private theorem Syntax.Import.begins_of_spells {statement : Import} {text : List Char}
    (h : Spells text statement.print.words) : BeginsLine text := by
  obtain ⟨first, others, tokens, hwords, hcut, hsolid, -⟩ := h
  have hkind : first.kind ∈ [TokenKind.keyword .importWord, .keyword .fromWord] := by
    cases statement with
    | modules items more =>
      obtain rfl := (List.cons.inj hwords).1
      decide
    | names origin enclosure items more =>
      obtain rfl := (List.cons.inj hwords).1
      decide
  intro lexeme hmem
  have hhead : Token.ofLexeme lexeme = first := by
    rw [Token.cut, List.map_eq_cons_iff] at hcut
    obtain ⟨head, rest, hlexemes, hfirst, -⟩ := hcut
    rw [hlexemes] at hmem
    obtain rfl := Option.some.inj hmem
    exact hfirst
  rw [hhead]
  refine ⟨hsolid, fun hclause => ?_⟩
  rcases List.mem_pair.mp hkind with heq | heq <;> rw [heq] at hclause <;> exact absurd hclause (by decide)

namespace SymbolTable

private theorem exists_bindings {line : Nat} (bindAll : SymbolTable → List Ast.ImportAlias → SymbolTable)
    (hdone : ∀ table, bindAll table [] = table)
    (hskip : ∀ table item rest, item.boundName = none → bindAll table (item :: rest) = bindAll table rest)
    (hbind : ∀ table item rest name, item.boundName = some name →
      ∃ type, bindAll table (item :: rest) = bindAll (table.define ⟨name, type, line⟩) rest)
    (table : SymbolTable) (items : List Ast.ImportAlias) :
    ∃ bindings : List Binding, bindings.map Binding.name = items.filterMap Ast.ImportAlias.boundName ∧
      (∀ binding ∈ bindings, binding.line = line) ∧ bindAll table items = bindings.foldl define table := by
  induction items generalizing table with
  | nil => exact ⟨[], rfl, nofun, hdone table⟩
  | cons item rest ih =>
    cases hbound : item.boundName with
    | none =>
      rw [List.filterMap_cons_none hbound, hskip table item rest hbound]
      exact ih table
    | some name =>
      obtain ⟨type, heq⟩ := hbind table item rest name hbound
      obtain ⟨bindings, hnames, hlines, hlast⟩ := ih (table.define ⟨name, type, line⟩)
      refine ⟨⟨name, type, line⟩ :: bindings, ?_, List.forall_mem_cons.mpr ⟨rfl, hlines⟩, heq.trans hlast⟩
      rw [List.filterMap_cons_some hbound, List.map_cons, hnames]

private theorem exists_bindings_importModules (table : SymbolTable) (line : Nat)
    (items : List Ast.ImportAlias) :
    ∃ bindings : List Binding, bindings.map Binding.name = items.filterMap Ast.ImportAlias.boundName ∧
      (∀ binding ∈ bindings, binding.line = line) ∧
      table.importModules line items = bindings.foldl define table := by
  refine exists_bindings (fun table items => table.importModules line items) (fun _ => rfl) ?_ ?_ table items
  · intro table item rest hbound
    simp only [importModules, hbound]
  · intro table item rest name hbound
    exact ⟨.any, by simp only [importModules, hbound]⟩

private theorem exists_bindings_importNames (table : SymbolTable) (line : Nat) (items : List Ast.ImportAlias) :
    ∃ bindings : List Binding, bindings.map Binding.name = items.filterMap Ast.ImportAlias.boundName ∧
      (∀ binding ∈ bindings, binding.line = line) ∧
      table.importNames line items = bindings.foldl define table := by
  refine exists_bindings (fun table items => table.importNames line items) (fun _ => rfl) ?_ ?_ table items
  · intro table item rest hbound
    simp only [importNames, hbound]
  · intro table item rest name hbound
    exact ⟨table.importedType item, by simp only [importNames, hbound]⟩

private theorem exists_bindings_defineImports {statement : Import} {s : Ast.Statement} {g : Ast.Placing}
    (h : s.place g = statement.ast) (table : SymbolTable) (line : Nat) :
    ∃ bindings : List Binding, bindings.map Binding.name = statement.bound ∧
      (∀ binding ∈ bindings, binding.line = line) ∧
      table.defineImports line s = bindings.foldl define table := by
  have hnames (items : List Ast.ImportAlias) :
      (items.map (Ast.ImportAlias.place g)).filterMap Ast.ImportAlias.boundName =
        items.filterMap Ast.ImportAlias.boundName := by
    rw [List.filterMap_map]
    exact congrArg (List.filterMap · items) (funext (Ast.ImportAlias.boundName_place g))
  have hdeclares := statement.declares_ast
  rw [← h] at hdeclares
  cases s with
  | importStatement extent items =>
    rw [← hdeclares, Ast.Statement.place, Ast.Statement.declares, hnames]
    exact exists_bindings_importModules table line items
  | fromImportStatement extent path items all =>
    obtain rfl : all = false := by
      cases statement with
      | modules first others => cases h
      | names origin enclosure first others => exact (Ast.Statement.fromImportStatement.inj h).2.2.2
    rw [← hdeclares, Ast.Statement.place, Ast.Statement.declares, if_neg Bool.false_ne_true, hnames]
    exact exists_bindings_importNames table line items
  | _ => cases statement <;> cases h

/-- What a line that imports binds, with any script before it and after it. The errors of the script are those of
its parts. If what the line imports from has a path, no error is reported for it, and it is a statement between
the others, which binds the names that Python binds, in their order and on the line of the statement, and
nothing else. If there are dots alone, errors are reported and the line is no statement, so nothing is bound. -/
theorem import_line_binds (statement : Import) {before text after : List Char} (hbefore : ClosesLine before)
    (htext : Spells text statement.print.words) (hafter : after = [] ∨ ClosesLine text ∧ BeginsLine after)
    (path : Option String) :
    let source := Source.ofText path (before ++ (text ++ after))
    let above := Ast.statementsAt 0 before
    let below := Ast.statementsAt (Text.byteLength before + Text.byteLength text) after
    source.parsed.errors.length =
      (parse before).errors.length + ((parse text).errors.length + (parse after).errors.length) ∧
    (statement.hasPath = true → (parse text).errors = [] ∧
      ∃ s, source.script.statements = above ++ s :: below ∧
        source.index.firstLine s.extent = before.count '\n' + 1 ∧
        ∀ table : SymbolTable, ∃ bindings : List Binding, bindings.map Binding.name = statement.bound ∧
          (∀ binding ∈ bindings, binding.line = before.count '\n' + 1) ∧
          table.defineImports (source.index.firstLine s.extent) s = bindings.foldl define table) ∧
    (statement.hasPath = false → (parse text).errors ≠ [] ∧ source.script.statements = above ++ below) := by
  intro source above below
  obtain ⟨first, others, tokens, hwords, hfirst, hcut, -, htokens⟩ := htext.ofText_cons
  have hline : BeginsLine text := Import.begins_of_spells htext
  obtain ⟨hbegins, hstatements, herrors⟩ : BeginsLine (text ++ after) ∧
      (∀ start, Ast.statementsAt start (text ++ after) =
        Ast.statementsAt start text ++ Ast.statementsAt (start + Text.byteLength text) after) ∧
      (parse (text ++ after)).errors.length = (parse text).errors.length + (parse after).errors.length := by
    rcases hafter with rfl | ⟨hcloses, hafter⟩
    · have hnone (start : Nat) : Ast.statementsAt start [] = [] := by
        rw [Ast.statementsAt, children_nil]
        rfl
      rw [List.append_nil, errors_nil]
      exact ⟨hline, fun start => by rw [hnone, List.append_nil], rfl⟩
    · exact ⟨hline.append hcloses hafter, Ast.statementsAt_append hcloses hafter,
        length_errors_append hcloses hafter⟩
  have hall : source.script.statements = above ++ (Ast.statementsAt (Text.byteLength before) text ++ below) := by
    have happend := Ast.statementsAt_append hbefore hbegins 0
    rwa [Nat.zero_add, hstatements] at happend
  refine ⟨(length_errors_append hbefore hbegins).trans (congrArg (_ + ·) herrors), fun hpath => ?_, fun hdots => ?_⟩
  · obtain ⟨hnone, ending, htree⟩ := Import.parse_print hpath htext
    obtain ⟨node, hnode⟩ := statement.exists_tree
    have hsense : Ast.Part.sense node = .statement statement.ast := by
      have hsenses := Import.senses_print hpath
      rw [Print.senses, hnode] at hsenses
      exact (List.cons.inj hsenses).1
    rw [hnode] at htree
    obtain ⟨hread, hstart⟩ := Ast.statementsAt_line htokens hfirst htree (Text.byteLength before)
    rw [hsense] at hread
    obtain ⟨s, hs, hplace⟩ := List.map_eq_singleton_iff.mp hread
    have hplaced : source.index.firstLine s.extent = before.count '\n' + 1 := by
      have hlast := Text.LineIndex.lineColumn_append hbefore.closed (text ++ after) 0
      rw [Text.LineIndex.lineColumn_zero, Nat.add_zero] at hlast
      rw [Text.LineIndex.firstLine, hstart s (by rw [hs]; exact List.mem_singleton_self s)]
      exact congrArg Text.LineColumn.line hlast
    refine ⟨hnone, s, by rw [hall, hs]; rfl, hplaced, fun table => ?_⟩
    rw [hplaced]
    exact exists_bindings_defineImports hplace table _
  · obtain ⟨hsome, children, ending, htree⟩ := Import.parse_dots hdots htext
    obtain ⟨hread, -⟩ := Ast.statementsAt_line htokens hfirst htree (Text.byteLength before)
    have hempty : Ast.statementsAt (Text.byteLength before) text = [] := List.map_eq_nil_iff.mp hread
    exact ⟨hsome, by rw [hall, hempty, List.nil_append]⟩

/-- A name of one letter. -/
private def letter (c : Char) (hword : Lexeme.measure c [] = (.word, 0))
    (hname : Token.ofLexeme ⟨.word, [c]⟩ = ⟨.name, [c], none⟩) : Name :=
  ⟨⟨.name, [c], none⟩, ⟨c, [], .word, rfl, hword, rfl, hname, rfl⟩, rfl⟩

/-- Names from a module beside the script, over two lines and below another import, and a name from a dot alone. -/
theorem import_line_binds_beside :
    let source := Source.ofText none ("import os\n".toList ++ ("from .a import (x,\n  y as z,)\n".toList ++ []))
    ClosesLine "import os\n".toList ∧ (parse "from .a import (x,\n  y as z,)\n".toList).errors = [] ∧
      (∃ s ∈ source.script.statements, source.index.firstLine s.extent = 2 ∧
        ∀ table : SymbolTable, ∃ bindings : List Binding, bindings.map Binding.name = ["x", "z"] ∧
          (∀ binding ∈ bindings, binding.line = 2) ∧
          table.defineImports (source.index.firstLine s.extent) s = bindings.foldl define table) ∧
      (parse "from . import x".toList).errors ≠ [] := by
  intro source
  let a := letter 'a' (by decide) (by decide)
  let x := letter 'x' (by decide) (by decide)
  let y := letter 'y' (by decide) (by decide)
  let z := letter 'z' (by decide) (by decide)
  have hbefore : ClosesLine "import os\n".toList := by
    have hlast : (Lexeme.ofText "import os\n".toList).getLast? = some ⟨.lineBreak, ['\n']⟩ := by cbv
    have hhead : (Token.lineHeads true (Token.ofText "import os\n".toList)).getLast? =
        some (Token.word .importWord) := by cbv
    refine ⟨?_, by cbv, by cbv, ?_⟩
    · intro last hmem
      rw [hlast] at hmem
      obtain rfl := Option.some.inj hmem
      rfl
    · intro head hmem
      rw [hhead] at hmem
      obtain rfl := Option.some.inj hmem
      decide
  have hcut : Token.cut "from .a import (x,\n  y as z,)\n".toList =
      [Token.word .fromWord, Token.gap, Token.mark .dot, a.token, Token.gap, Token.word .importWord, Token.gap,
        Token.mark .leftParen, x.token, Token.mark .comma, Token.lineBreak ['\n'], ⟨.blank, [' ', ' '], none⟩,
        y.token, Token.gap, Token.word .asWord, Token.gap, z.token, Token.mark .comma, Token.mark .rightParen,
        Token.lineBreak ['\n']] := by cbv
  have hdot : Token.cut "from . import x".toList =
      [Token.word .fromWord, Token.gap, Token.mark .dot, Token.gap, Token.word .importWord, Token.gap,
        x.token] := by cbv
  have htext : Spells "from .a import (x,\n  y as z,)\n".toList
      (Import.names ⟨1, some ⟨a, []⟩, .inl (by decide)⟩ (.round true) ⟨x, none⟩ [⟨y, some z⟩]).print.words :=
    ⟨_, _, _, rfl, hcut, by decide, .filler rfl <| .word (by decide) <| .word (by decide) <| .filler rfl <|
      .word (by decide) <| .filler rfl <| .word (by decide) <| .word (by decide) <| .word (by decide) <|
      .fold rfl <| .filler rfl <| .word (by decide) <| .filler rfl <| .word (by decide) <| .filler rfl <|
      .word (by decide) <| .word (by decide) <| .word (by decide) <| .ended rfl (List.forall_mem_nil _)⟩
  have hdots : Spells "from . import x".toList
      (Import.names ⟨1, none, .inl (by decide)⟩ .none ⟨x, none⟩ []).print.words :=
    ⟨_, _, _, rfl, hdot, by decide, .filler rfl <| .word (by decide) <| .filler rfl <| .word (by decide) <|
      .filler rfl <| .word (by decide) .done⟩
  obtain ⟨hnone, s, hs, hline, hbinds⟩ := (import_line_binds _ hbefore htext (.inl rfl) none).2.1 rfl
  refine ⟨hbefore, hnone, ⟨s, ?_, hline, hbinds⟩, ?_⟩
  · rw [hs]
    simp
  · exact ((import_line_binds _ hbefore hdots (.inl rfl) none).2.2 rfl).1

end SymbolTable

end QuantumScript
