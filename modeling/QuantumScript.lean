import QuantumScript.Syntax.Lexed
import QuantumScript.Syntax.Outline
import QuantumScript.Syntax.Reading
import QuantumScript.Assignment
import QuantumScript.Builtins
import QuantumScript.Folding
import QuantumScript.Hoisting
import QuantumScript.Report
import QuantumScript.Proofs.Parsing.Soundness
import QuantumScript.Proofs.Parsing.Lossless
import QuantumScript.Proofs.Printing.Lines
import QuantumScript.Proofs.Printing.Phrases
import QuantumScript.Proofs.Printing.Levels
import QuantumScript.Proofs.Printing.Lists
import QuantumScript.Proofs.Printing.Atoms
import QuantumScript.Proofs.Printing.Operators
import QuantumScript.Proofs.Printing.Arguments
import QuantumScript.Proofs.Printing.Chains
import QuantumScript.Proofs.Printing.Expressions
import QuantumScript.Proofs.Printing.Texts
import QuantumScript.Proofs.Printing.Simple
import QuantumScript.Proofs.Printing.Imports
import QuantumScript.Proofs.Printing.Statements
import QuantumScript.Proofs.Printing.Blocks
import QuantumScript.Proofs.Printing.Headers
import QuantumScript.Proofs.Printing.Compounds
import QuantumScript.Proofs.Printing.Roundtrip
import QuantumScript.Proofs.Reading.Programs
import QuantumScript.Proofs.Scoping.Chronicle
import QuantumScript.Proofs.Scoping.Past
import QuantumScript.Proofs.Scoping.Growth
import QuantumScript.Proofs.Walking.Declared
import QuantumScript.Proofs.Walking.Nesting
import QuantumScript.Proofs.Mentions.Scripts
import QuantumScript.Proofs.Seams.Folds
import QuantumScript.Proofs.Parsing.Conforming
import QuantumScript.Proofs.Binding.Definitions
import QuantumScript.Proofs.Parsing.Named
import QuantumScript.Proofs.Walking.Occurrences
import QuantumScript.Proofs.Parsing.Complete
import QuantumScript.Proofs.Parsing.Suites
import QuantumScript.Proofs.Locating.Diagnostics
import QuantumScript.Proofs.Ordering.Expressions
import QuantumScript.Proofs.Lexing.Alone
import QuantumScript.Proofs.Lexing.Breaks
import QuantumScript.Proofs.Lines.Blanks
import QuantumScript.Proofs.Lines.Borders
import QuantumScript.Proofs.Lines.Spellings
import QuantumScript.Proofs.Ordering.Assignments
import QuantumScript.Proofs.Ordering.Statements
import QuantumScript.Proofs.Ordering.Definitions
import QuantumScript.Proofs.Ordering.Hints
import QuantumScript.Proofs.Ordering.Hoisting
import QuantumScript.Proofs.Ordering.Scripts
import QuantumScript.Proofs.Walking.Frames
import QuantumScript.Proofs.Typing.Replay
import QuantumScript.Proofs.Typing.Lineage
import QuantumScript.Proofs.Calling.Passing
import QuantumScript.Proofs.Walking.Visits
import QuantumScript.Proofs.Binding.Imports
import QuantumScript.Proofs.Binding.Receivers
import QuantumScript.Proofs.Lines.Indentation
import QuantumScript.Proofs.Folding.Indices
import QuantumScript.Proofs.Numbers.Integers
import QuantumScript.Proofs.Folding.Order
import QuantumScript.Proofs.Folding.Rendering
import QuantumScript.Proofs.Lexing.Strings
import QuantumScript.Proofs.Locating.Offsets
import QuantumScript.Proofs.Lines.Spread
import QuantumScript.Proofs.Printing.Mistakes
import QuantumScript.Proofs.Reading.Imports
import QuantumScript.Proofs.Binding.Importing
import QuantumScript.Proofs.Binding.Sides
import QuantumScript.Proofs.Locating.Errors
import QuantumScript.Proofs.Locating.Marks
import QuantumScript.Proofs.Locating.Heads
import QuantumScript.Proofs.Mentions.Identifiers
