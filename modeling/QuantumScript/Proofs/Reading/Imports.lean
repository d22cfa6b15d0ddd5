import QuantumScript.Proofs.Lines.Spread
import QuantumScript.Proofs.Printing.Mistakes
import QuantumScript.Proofs.Reading.Statements
import QuantumScript.Proofs.Walking.Declared
/-!
# Reading imports

The statements that import. A line of one is read as it if it names what it imports from by a path, perhaps
with dots before it. A line with dots alone is not: where the name should follow the dots, the word `import` is
taken for a mistake, and the line is an error as a whole.
-/

namespace QuantumScript

namespace Syntax

open Ast (nowhere)
open Production

/-- Where names are imported from: dots, a path, or a path with dots before it. -/
structure Origin where
  dots : Nat
  path : Option Path
  written : 0 < dots ∨ path.isSome = true

/-- How the imported names are enclosed. A comma may stand after the last one between parentheses. -/
inductive Enclosure
  | none
  | round (comma : Bool)

inductive Import
  | modules (first : ModuleAlias) (others : List ModuleAlias)
  | names (origin : Origin) (enclosure : Enclosure) (first : NameAlias) (others : List NameAlias)

/-- The name that is bound: the new name, else the first component of the path. -/
def ModuleAlias.bound (item : ModuleAlias) : String :=
  String.ofList (item.newName.getD item.path.first).token.text

/-- The name that is bound: the new name, else the imported one. -/
def NameAlias.bound (item : NameAlias) : String :=
  String.ofList (item.newName.getD item.name).token.text

open Print in
def Origin.print (origin : Origin) : Print :=
  (concat (List.replicate origin.dots (mark .dot)) ++ (origin.path.map Path.print).getD empty).node .dottedName

def Enclosure.print (listed : Print) : Enclosure → Print
  | .none => listed
  | .round comma => .between .round (listed ++ .trailing comma)

namespace Import

/-- What is imported from has a path. -/
def hasPath : Import → Bool
  | .modules _ _ => true
  | .names origin _ _ _ => origin.path.isSome

/-- The names that Python binds, in order. -/
def bound : Import → List String
  | .modules first others => (first :: others).map ModuleAlias.bound
  | .names _ _ first others => (first :: others).map NameAlias.bound

open Print in
/-- The words of the statement. If it has a path they are read as the tree. -/
def print : Import → Print
  | .modules first others =>
    (word .importWord ++ items ((first :: others).map ModuleAlias.print)).node .importStatement
  | .names origin enclosure first others =>
    (word .fromWord ++ (origin.print ++
      (word .importWord ++ enclosure.print (items ((first :: others).map NameAlias.print))))).node
        .fromImportStatement

def ast : Import → Ast.Statement
  | .modules first others => .importStatement nowhere ((first :: others).map ModuleAlias.ast)
  | .names origin _ first others =>
    .fromImportStatement nowhere (origin.path.map Path.ast) ((first :: others).map NameAlias.ast) false

theorem exists_tree (statement : Import) : ∃ tree, statement.print.trees = [tree] := by
  cases statement <;> exact ⟨_, rfl⟩

theorem declares_ast (statement : Import) : statement.ast.declares = statement.bound := by
  have hmodule (item : ModuleAlias) : item.ast.boundName = some item.bound := by
    obtain ⟨path, newName⟩ := item
    cases newName <;> rfl
  have hname (item : NameAlias) : item.ast.boundName = some item.bound := by
    obtain ⟨name, newName⟩ := item
    cases newName <;> rfl
  have hall {α : Type} {ast : α → Ast.ImportAlias} {bound : α → String}
      (h : ∀ item, (ast item).boundName = some (bound item)) (items : List α) :
      (items.map ast).filterMap Ast.ImportAlias.boundName = items.map bound := by
    rw [List.filterMap_map, ← List.filterMap_eq_map]
    exact congrArg (List.filterMap · items) (funext h)
  cases statement with
  | modules first others => exact hall hmodule (first :: others)
  | names origin enclosure first others => exact hall hname (first :: others)

end Import

section Prints

private theorem Enclosure.sound_print (enclosure : Enclosure) {listed : Print} (h : Sound listed.words) :
    Sound (enclosure.print listed).words := by
  cases enclosure with
  | none => exact h
  | round comma =>
    cases comma with
    | false => exact Sound.between (h.append Sound.nil)
    | true => exact Sound.between (h.append (Sound.mark rfl rfl Sound.nil))

private theorem Origin.sound_print (origin : Origin) : Sound origin.print.words := by
  obtain ⟨dots, path, _⟩ := origin
  cases path with
  | none => exact (sound_dots dots).append Sound.nil
  | some path => exact (sound_dots dots).append (sound_path path)

private theorem Enclosure.takes_print (enclosure : Enclosure) (first : NameAlias) (others : List NameAlias)
    {rest : List Token} (hrest : Token.nextKind rest = .newline) :
    Takes importedNames true (enclosure.print (.items ((first :: others).map NameAlias.print))) rest := by
  cases enclosure with
  | none => exact takes_imported (.names false first others) hrest
  | round comma => exact takes_enclosed first others comma rest

theorem Enclosure.filterMap_print (enclosure : Enclosure) (first : NameAlias) (others : List NameAlias) :
    (enclosure.print (.items ((first :: others).map NameAlias.print))).senses.filterMap
      Ast.Part.importAlias? = (first :: others).map NameAlias.ast := by
  have hlisted := (Imported.names false first others).filterMap_print
  cases enclosure with
  | none => exact hlisted
  | round comma =>
    rw [print, Print.filterMap_between (fun _ => rfl), Print.senses_append, List.filterMap_append]
    cases comma <;> exact (List.append_nil _).trans hlisted

theorem Enclosure.hasToken_print (enclosure : Enclosure) (first : NameAlias) (others : List NameAlias) :
    Ast.Part.hasToken (.symbol .star)
      (enclosure.print (.items ((first :: others).map NameAlias.print))).senses = false := by
  have hlisted : Ast.Part.hasToken (.symbol .star)
      (Print.items ((first :: others).map NameAlias.print)).senses = false :=
    (Imported.names false first others).hasToken_print
  cases enclosure with
  | none => exact hlisted
  | round comma =>
    rw [print, Print.senses_between, ← List.singleton_append, Print.senses_append]
    simp only [Ast.Part.hasToken_append, hlisted]
    cases comma <;> rfl

namespace Import

private theorem sound_print (statement : Import) : Sound statement.print.words := by
  cases statement with
  | modules first others => exact Sound.word .importWord (sound_modules (first :: others))
  | names origin enclosure first others =>
    exact Sound.word .fromWord (origin.sound_print.append
      (Sound.word .importWord (enclosure.sound_print (sound_names (first :: others)))))

variable {statement : Import} (h : statement.hasPath = true)
include h

theorem simply : Simply statement.print := by
  cases statement with
  | modules first others => exact (Simple.modules first others).simply
  | names origin enclosure first others =>
    obtain ⟨dots, path, _⟩ := origin
    obtain ⟨path, rfl⟩ := Option.isSome_iff_exists.mp h
    exact simply_fromImport dots path (enclosure.sound_print (sound_names (first :: others))) fun _ =>
      enclosure.takes_print first others

theorem senses_print : statement.print.senses = [.statement statement.ast] := by
  cases statement with
  | modules first others => exact (Simple.modules first others).senses_print
  | names origin enclosure first others =>
    obtain ⟨dots, path, _⟩ := origin
    obtain ⟨path, rfl⟩ := Option.isSome_iff_exists.mp h
    rw [print, Print.senses_node]
    simp only [Print.senses_append, Origin.print, Option.map_some, Option.getD_some, path.senses_dotted,
      Ast.Part.assemble, List.filterMap_append, Ast.Part.hasToken_append, List.findSome?_append,
      enclosure.filterMap_print, enclosure.hasToken_print]
    rfl

/-- With a path, the line is read as the statement. -/
theorem parse_print {text : List Char} (hspells : Spells text statement.print.words) :
    (parse text).errors = [] ∧
      ∃ ending, (parse text).tree.bare = .node .file (statement.print.trees ++ [.token .newline ending]) := by
  obtain ⟨ending, hsignificant⟩ := hspells.significant
  have hstated : ∀ print ∈ [statement.print ++ .leaf (.lineBreak ending)], Stated print :=
    List.forall_mem_singleton.mpr (stated_simple ending (simply h))
  have hconcat : Print.concat [statement.print ++ .leaf (.lineBreak ending)] =
      statement.print ++ .leaf (.lineBreak ending) := Print.append_empty _
  have hflawless : Flawless (statement.print ++ .leaf (.lineBreak ending)).words :=
    statement.sound_print.flawless.append (Flawless.token (.lineBreak ending) rfl)
  obtain ⟨herrors, htree⟩ := parse_statements hstated (by rw [hconcat]; exact hsignificant)
    (by rw [hconcat]; exact hflawless)
  rw [hconcat] at htree
  exact ⟨herrors, ending, htree⟩

end Import

end Prints

section Dots

/-- None of the words ends a simple statement. -/
def Lasting (words : List Token) : Prop := ∀ token ∈ words, Sketch.goesOn token = true

theorem Lasting.append {words more : List Token} (hwords : Lasting words) (hmore : Lasting more) :
    Lasting (words ++ more) := List.forall_mem_append.mpr ⟨hwords, hmore⟩

theorem Lasting.token {token : Token} (h : token.kind ∉ Parse.statementEnds) : Lasting [token] :=
  List.forall_mem_singleton.mpr (by simpa [Sketch.goesOn] using h)

private theorem lasting_items {prints : List Print} (h : ∀ print ∈ prints, Lasting print.words) :
    Lasting (Print.items prints).words := by
  have hothers (prints : List Print) (h : ∀ print ∈ prints, Lasting print.words) :
      Lasting (Print.others prints).words := by
    induction prints with
    | nil => exact List.forall_mem_nil _
    | cons print prints ih =>
      obtain ⟨hprint, hprints⟩ := List.forall_mem_cons.mp h
      have hcomma : Lasting [Token.mark .comma] := Lasting.token (by decide)
      exact hcomma.append (hprint.append (ih hprints))
  cases prints with
  | nil => exact List.forall_mem_nil _
  | cons print prints =>
    obtain ⟨hprint, hprints⟩ := List.forall_mem_cons.mp h
    exact hprint.append (hothers prints hprints)

private theorem lasting_name (name : Name) : Lasting (Print.name name).words :=
  Lasting.token (by rw [name.kind_name]; decide)

private theorem NameAlias.lasting_print (item : NameAlias) : Lasting item.print.words := by
  obtain ⟨name, newName⟩ := item
  refine (lasting_name name).append ?_
  cases newName with
  | none => exact List.forall_mem_nil _
  | some newName => exact (Lasting.token (by decide)).append (lasting_name newName)

private theorem Enclosure.lasting_print (enclosure : Enclosure) (items : List NameAlias) :
    Lasting (enclosure.print (.items (items.map NameAlias.print))).words := by
  have hitems : Lasting (Print.items (items.map NameAlias.print)).words :=
    lasting_items (List.forall_mem_map.mpr fun item _ => item.lasting_print)
  cases enclosure with
  | none => exact hitems
  | round comma =>
    refine (Lasting.token (by decide)).append ((hitems.append ?_).append (Lasting.token (by decide)))
    cases comma with
    | false => exact List.forall_mem_nil _
    | true => exact Lasting.token (by decide)

private theorem Enclosure.nextKind_print (enclosure : Enclosure) (first : NameAlias) (others : List NameAlias)
    (rest : List Token) :
    Token.nextKind ((enclosure.print (.items ((first :: others).map NameAlias.print))).words ++ rest) ∈
      [TokenKind.name, .symbol .leftParen] := by
  cases enclosure with
  | none =>
    have hname : Token.nextKind ((Enclosure.none.print
        (.items ((first :: others).map NameAlias.print))).words ++ rest) = .name := first.name.kind_name
    rw [hname]
    decide
  | round comma =>
    change TokenKind.symbol .leftParen ∈ _
    decide

private theorem books_dots (dots : Nat) {rest : List Token}
    (hrest : Token.nextKind rest ∈ [TokenKind.name, .symbol .leftParen]) :
    ∃ trees, Books fromImportStatement false
      ⟨(Print.word .fromWord ++ (.concat (List.replicate dots (.mark .dot)) ++ .word .importWord)).words, trees⟩
      [.missing (.keyword .importWord), .missingName] rest := by
  have hdot : Token.nextKind rest ≠ .symbol .dot := fun heq => by simp [heq] at hrest
  have himport : Token.nextKind rest ≠ .keyword .importWord := fun heq => by simp [heq] at hrest
  have hname : Books name true ((Print.word .importWord).node .error) [.missingName] rest :=
    books_name nofun rfl
  have hafter : Takes (.loop component) true .empty rest := takes_components [] hdot
  have hdots : Takes (.loop (eat (.symbol .dot))) true (.concat (List.replicate dots (.mark .dot)))
      (Token.word .importWord :: rest) := takes_dots dots nofun
  have hcomponents : Books (.seq name (.loop component)) true ((Print.word .importWord).node .error)
      [.missingName] rest := by
    have hseq := Books.seq hname hafter.books
    rwa [Print.append_empty] at hseq
  have hpath : Books dottedName true ((Print.concat (List.replicate dots (.mark .dot)) ++
      (Print.word .importWord).node .error).node .dottedName) [.missingName] rest :=
    Books.node (Books.seq hdots.books hcomponents)
  have hexpect : Books (expect (.keyword .importWord)) false .empty [.missing (.keyword .importWord)] rest :=
    books_expect himport
  have hmissing : Books (.cond (expect (.keyword .importWord)) importedNames (.answer false)) false
      .empty [.missing (.keyword .importWord)] rest := Books.cond_no hexpect (Takes.answered false).books
  have hall : Books fromImportStatement false (Print.word .fromWord ++ (_ ++ .empty)) _ rest :=
    Books.seq (takes_word .fromWord _).books (Books.seq hpath hmissing)
  rw [Print.append_empty] at hall
  exact ⟨_, hall⟩

variable {statement : Import} (h : statement.hasPath = false)
include h

private theorem Import.books_print (ending : List Char) :
    ∃ children, Books (.call .simpleStatement) true ⟨statement.print.words, [.node .error children]⟩
      [.missing (.keyword .importWord), .missingName] [.lineBreak ending] := by
  cases statement with
  | modules first others => cases h
  | names origin enclosure first others =>
    obtain ⟨dots, path, _⟩ := origin
    obtain rfl : path = none := Option.isNone_iff_eq_none.mp (Option.isSome_eq_false_iff.mp h)
    let listed := (enclosure.print (.items ((first :: others).map NameAlias.print))).words
    have hnext : Token.nextKind (listed ++ [.lineBreak ending]) ∈ [TokenKind.name, .symbol .leftParen] :=
      enclosure.nextKind_print first others _
    obtain ⟨trees, hbody⟩ := books_dots dots hnext
    let begun := (Print.word .fromWord ++
      (.concat (List.replicate dots (.mark .dot)) ++ .word .importWord)).words
    have hstatement : Books (Script.statement .fromImportStatement fromImportStatement) true
        ⟨begun ++ listed, [.node .error (trees ++ listed.map Token.leaf)]⟩
        [.missing (.keyword .importWord), .missingName] [.lineBreak ending] :=
      Books.statement (enclosure.lasting_print (first :: others)) rfl (List.cons_ne_nil _ _) hbody
    have hsimple : Books (.call .simpleStatement) true
        ⟨begun ++ listed, [.node .error (trees ++ listed.map Token.leaf)]⟩
        [.missing (.keyword .importWord), .missingName] [.lineBreak ending] := by
      apply Books.call
      iterate 5 refine Books.at_no rfl ?_
      exact Books.at_yes rfl hstatement
    have hwords : (Import.names ⟨dots, none, ‹_›⟩ enclosure first others).print.words = begun ++ listed := by
      simp [print, Origin.print, Print.node, listed, begun]
    rw [hwords]
    exact ⟨_, hsimple⟩

/-- With dots alone the line is no statement, and errors are reported. -/
theorem Import.parse_dots {text : List Char} (hspells : Spells text statement.print.words) :
    (parse text).errors ≠ [] ∧ ∃ children ending,
      (parse text).tree.bare = .node .file [.node .error children, .token .newline ending] := by
  obtain ⟨ending, hsignificant⟩ := hspells.significant
  obtain ⟨children, hbooks⟩ := books_print h ending
  have hstarts : Token.nextKind statement.print.words = .keyword .fromWord := by
    cases statement with
    | modules first others => cases h
    | names origin enclosure first others => rfl
  have hnonempty : statement.print.words ≠ [] := by
    intro hnil
    rw [hnil] at hstarts
    cases hstarts
  have hread := books_file hbooks (by rw [hstarts]; rfl) hnonempty
  obtain ⟨sketch, hsketch, htree, hproblems⟩ := parse_read text
  rw [hsignificant] at hsketch
  obtain rfl := (Prod.mk.inj (Option.some.inj (hsketch.symm.trans hread))).2
  refine ⟨fun hnone => ?_, children, ending, htree⟩
  rw [problems_of_errors_nil hnone] at hproblems
  cases hproblems

end Dots

end Syntax

end QuantumScript
