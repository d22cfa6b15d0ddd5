import QuantumScript.Declaration
import QuantumScript.SymbolTable
/-!
# Imports

An imported module is not read, so nothing is known of what it holds. A name that is also bound
already, such as that of a builtin class, is taken to stand for the same thing.
-/

namespace QuantumScript

namespace SymbolTable

/-- Binds the names of `import`. They stand for modules, of which nothing is known. -/
def importModules (table : SymbolTable) (line : Nat) : List Ast.ImportAlias → SymbolTable
  | [] => table
  | item :: rest =>
    match item.boundName with
    | some name => (table.define ⟨name, .any, line⟩).importModules line rest
    | none => table.importModules line rest

/-- The type of an imported name: that of its earliest binding, if there is any. -/
def importedType (table : SymbolTable) (item : Ast.ImportAlias) : SymbolType :=
  match item.importedName.bind table.lookupDeclared? with
  | some record => record.binding.type
  | none => .any

/-- Binds the names of `from .. import`. -/
def importNames (table : SymbolTable) (line : Nat) : List Ast.ImportAlias → SymbolTable
  | [] => table
  | item :: rest =>
    match item.boundName with
    | some name => (table.define ⟨name, table.importedType item, line⟩).importNames line rest
    | none => table.importNames line rest

/-- Binds the names of a statement that imports; other statements bind nothing here. Importing
everything binds nothing, since the names are not known. -/
def defineImports (table : SymbolTable) (line : Nat) : Ast.Statement → SymbolTable
  | .importStatement _ aliases => table.importModules line aliases
  | .fromImportStatement _ _ aliases all =>
    if all then table else table.importNames line aliases
  | _ => table

end SymbolTable

end QuantumScript
