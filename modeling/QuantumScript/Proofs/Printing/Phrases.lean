import QuantumScript.Proofs.Printing.Words
import QuantumScript.Proofs.Parsing.Contracts
/-!
# Phrases

Abstract expressions with all that stands inside them, and how they are printed. Parentheses stand
where an expression binds too loosely for its place, and nowhere else.
-/

namespace QuantumScript

namespace Syntax

/-- A plain token of one of the kinds. -/
structure Word (kinds : List TokenKind) where
  token : Token
  plain : token.Plain
  kind : kinds.contains token.kind = true

abbrev Name := Word [.name]

abbrev Quoted := Word [.quoted]

/-- A literal of one token, strings aside. -/
abbrev Literal :=
  Word [.integer, .float, .imaginary, .keyword .trueWord, .keyword .falseWord, .keyword .noneWord]

inductive Sign
  | minus | plus | tilde
  deriving DecidableEq, Repr

def Sign.symbol : Sign → Symbol
  | .minus => .minus
  | .plus => .plus
  | .tilde => .tilde

/-- Operators that group from the left. -/
inductive Operator
  | orWord | andWord
  | less | greater | equality | inequality | lessEqual | greaterEqual
  | inWord | notIn | isWord | isNot
  | bar | caret | ampersand | shiftLeft | shiftRight | plus | minus
  | star | slash | doubleSlash | percent | at
  deriving DecidableEq, Repr

namespace Operator

def rule : Operator → Rule
  | .orWord => .disjunction
  | .andWord => .conjunction
  | .less | .greater | .equality | .inequality | .lessEqual | .greaterEqual | .inWord | .notIn
  | .isWord | .isNot => .comparison
  | .bar => .bitOr
  | .caret => .bitXor
  | .ampersand => .bitAnd
  | .shiftLeft | .shiftRight => .shift
  | .plus | .minus => .sum
  | .star | .slash | .doubleSlash | .percent | .at => .product

def tokens : Operator → List Token
  | .orWord => [.word .orWord]
  | .andWord => [.word .andWord]
  | .less => [.mark .less]
  | .greater => [.mark .greater]
  | .equality => [.mark .equality]
  | .inequality => [.mark .inequality]
  | .lessEqual => [.mark .lessEqual]
  | .greaterEqual => [.mark .greaterEqual]
  | .inWord => [.word .inWord]
  | .notIn => [.word .notWord, .word .inWord]
  | .isWord => [.word .isWord]
  | .isNot => [.word .isWord, .word .notWord]
  | .bar => [.mark .bar]
  | .caret => [.mark .caret]
  | .ampersand => [.mark .ampersand]
  | .shiftLeft => [.mark .shiftLeft]
  | .shiftRight => [.mark .shiftRight]
  | .plus => [.mark .plus]
  | .minus => [.mark .minus]
  | .star => [.mark .star]
  | .slash => [.mark .slash]
  | .doubleSlash => [.mark .doubleSlash]
  | .percent => [.mark .percent]
  | .at => [.mark .at]

end Operator

inductive Bracket
  | round | square | curly
  deriving DecidableEq, Repr

namespace Bracket

def opening : Bracket → Symbol
  | .round => .leftParen
  | .square => .leftBracket
  | .curly => .leftBrace

def closing : Bracket → Symbol
  | .round => .rightParen
  | .square => .rightBracket
  | .curly => .rightBrace

/-- The rule of atoms in these brackets. -/
def rule : Bracket → Rule
  | .round => .parenthesized
  | .square => .list
  | .curly => .dictionary

end Bracket

/-- The stars before a parameter or an argument. -/
inductive Stars
  | none | one | two
  deriving DecidableEq, Repr

def Stars.tokens : Stars → List Token
  | .none => []
  | .one => [.mark .star]
  | .two => [.mark .doubleStar]

/-- The rule that reads what a level leaves to the tighter ones. -/
def Rule.tighter : Rule → Rule
  | .expressionList => .expression
  | .expression => .disjunction
  | .disjunction => .conjunction
  | .conjunction => .negation
  | .negation => .comparison
  | .targetList | .comparison => .bitOr
  | .bitOr => .bitXor
  | .bitXor => .bitAnd
  | .bitAnd => .shift
  | .shift => .sum
  | .sum => .product
  | .product => .factor
  | .factor => .power
  | .power => .chain
  | _ => .atom

/-- What rows without brackets are made of: elements of tuples or targets of loops. -/
inductive Place
  | element | target
  deriving DecidableEq, Repr

/-- The rule that reads one item of a row. -/
def Place.rule : Place → Rule
  | .element => .expression
  | .target => .bitOr

/-- Sorts of phrases. -/
inductive Part
  | expression
  /-- An expression as an item. -/
  | item (place : Place)
  | row (place : Place)
  | targets
  | parameter
  | argument
  | bound
  | index
  | entry
  | comprehension
  | clauses
  | items (part : Part)
  /-- Items after the first one. -/
  | others (part : Part)

/-- Abstract expressions and what they are made of. -/
inductive Phrase : Part → Type
  | name (name : Name) : Phrase .expression
  | literal (literal : Literal) : Phrase .expression
  | strings (first : Quoted) (others : List Quoted) : Phrase .expression
  | sign (sign : Sign) (operand : Phrase .expression) : Phrase .expression
  | negation (operand : Phrase .expression) : Phrase .expression
  | binary (operator : Operator) (left right : Phrase .expression) : Phrase .expression
  | power (base exponent : Phrase .expression) : Phrase .expression
  | conditional (value condition other : Phrase .expression) : Phrase .expression
  | lambda (parameters : Phrase (.items .parameter)) (body : Phrase .expression) :
    Phrase .expression
  | member (value : Phrase .expression) (name : Name) : Phrase .expression
  | call (function : Phrase .expression) (arguments : Phrase (.items .argument)) :
    Phrase .expression
  | subscript (value : Phrase .expression) (first : Phrase .index)
    (others : Phrase (.others .index)) : Phrase .expression
  | unit : Phrase .expression
  | tuple (elements : Phrase (.row .element)) : Phrase .expression
  | list (elements : Phrase (.items (.item .element))) : Phrase .expression
  | set (first : Phrase (.item .element))
    (others : Phrase (.others (.item .element))) : Phrase .expression
  | dictionary (entries : Phrase (.items .entry)) : Phrase .expression
  /-- A generator, or the comprehension of a list or a set. -/
  | comprehended (bracket : Bracket) (element : Phrase (.item .element))
    (clauses : Phrase .comprehension) : Phrase .expression
  | dictionaryComprehension (entry : Phrase .entry) (clauses : Phrase .comprehension) :
    Phrase .expression
  | item {place : Place} (value : Phrase .expression) : Phrase (.item place)
  | single {place : Place} (item : Phrase (.item place)) : Phrase (.row place)
  | several {place : Place} (first second : Phrase (.item place))
    (others : Phrase (.others (.item place))) : Phrase (.row place)
  | target (target : Phrase .expression) : Phrase .targets
  | targets (targets : Phrase (.row .target)) : Phrase .targets
  | parameter (stars : Stars) (name : Name) : Phrase .parameter
  | defaulted (name : Name) (value : Phrase .expression) : Phrase .parameter
  /-- An argument by its place, or one that is unpacked. -/
  | argument (stars : Stars) (value : Phrase .expression) : Phrase .argument
  | keyword (name : Name) (value : Phrase .expression) : Phrase .argument
  | generated (element : Phrase (.item .element)) (clauses : Phrase .comprehension) :
    Phrase .argument
  | unbounded : Phrase .bound
  | bound (value : Phrase .expression) : Phrase .bound
  | index (value : Phrase .expression) : Phrase .index
  | slice (lower upper : Phrase .bound) : Phrase .index
  | stride (lower upper step : Phrase .bound) : Phrase .index
  | entry (key value : Phrase .expression) : Phrase .entry
  | comprehension (targets : Phrase .targets) (iterable : Phrase .expression)
    (clauses : Phrase .clauses) : Phrase .comprehension
  | noClauses : Phrase .clauses
  | each (targets : Phrase .targets) (iterable : Phrase .expression)
    (clauses : Phrase .clauses) : Phrase .clauses
  | filter (condition : Phrase .expression) (clauses : Phrase .clauses) : Phrase .clauses
  | noItems {part : Part} : Phrase (.items part)
  | items {part : Part} (first : Phrase part) (others : Phrase (.others part)) :
    Phrase (.items part)
  | noOthers {part : Part} : Phrase (.others part)
  | others {part : Part} (first : Phrase part) (others : Phrase (.others part)) :
    Phrase (.others part)

namespace Print

def mark (symbol : Symbol) : Print := leaf (.mark symbol)

def word (keyword : Keyword) : Print := leaf (.word keyword)

def leaves (tokens : List Token) : Print := ⟨tokens, tokens.map Token.leaf⟩

/-- A name as a node of its own. -/
def name (name : Name) : Print := (leaf name.token).node .name

def between (bracket : Bracket) (print : Print) : Print :=
  mark bracket.opening ++ (print ++ mark bracket.closing)

/-- What the rule reads, printed where another rule reads it. -/
def guard (level rule : Rule) (print : Print) : Print :=
  if level.rank < rule.rank then (between .round print).node .parenthesized
  else print

/-- The print of a node without the node. -/
def inside (print : Print) : Print :=
  match print.trees with
  | [.node _ children] => ⟨print.words, children⟩
  | _ => print

theorem words_inside (print : Print) : print.inside.words = print.words := by
  unfold inside
  split <;> rfl

/-- An atom and the calls, subscripts and attributes after it are all parts of one chain. -/
def chained (rule : Rule) (value trailer : Print) : Print :=
  ((if rule = .chain then value.inside else value.guard .atom rule) ++ trailer).node .chain

/-- Separated by commas. -/
def others : List Print → Print
  | [] => empty
  | print :: prints => mark .comma ++ (print ++ others prints)

def items : List Print → Print
  | [] => empty
  | print :: prints => print ++ others prints

end Print

theorem takes_mark (symbol : Symbol) (rest : List Token) :
    Takes (.bump (.symbol symbol)) true (.mark symbol) rest := Takes.bump rfl

theorem takes_word (keyword : Keyword) (rest : List Token) :
    Takes (.bump (.keyword keyword)) true (.word keyword) rest := Takes.bump rfl

theorem takes_expect_mark (symbol : Symbol) (rest : List Token) :
    Takes (Production.expect (.symbol symbol)) true (.mark symbol) rest :=
  Production.takes_expect rfl

theorem takes_expect_word (keyword : Keyword) (rest : List Token) :
    Takes (Production.expect (.keyword keyword)) true (.word keyword) rest :=
  Production.takes_expect rfl

namespace Phrase

/-- The tightest rule that reads the expression as it is. -/
def rule {part : Part} : Phrase part → Rule
  | .sign _ _ => .factor
  | .negation _ => .negation
  | .binary operator _ _ => operator.rule
  | .power _ _ => .power
  | .conditional _ _ _ | .lambda _ _ => .expression
  | .member _ _ | .call _ _ | .subscript _ _ _ => .chain
  | .tuple _ => .expressionList
  | _ => .atom

open Print in
def print {part : Part} : Phrase part → Print
  | .name token => Print.name token
  | .literal token => (leaf token.token).node .literal
  | .strings first more =>
    (leaf first.token ++ leaves (more.map Word.token)).node .literal
  | .sign prefixed value => (mark prefixed.symbol ++ guard .factor value.rule value.print).node .unary
  | .negation value => (word .notWord ++ guard .negation value.rule value.print).node .unary
  | .binary operator left right =>
    (guard operator.rule left.rule left.print ++
      (leaves operator.tokens ++ guard operator.rule.tighter right.rule right.print)).node .binary
  | .power base exponent =>
    (guard .chain base.rule base.print ++
      (mark .doubleStar ++ guard .factor exponent.rule exponent.print)).node .binary
  | .conditional value condition other =>
    (guard .disjunction value.rule value.print ++
      (word .ifWord ++ (guard .disjunction condition.rule condition.print ++
        (word .elseWord ++ guard .expression other.rule other.print)))).node .conditional
  | .lambda parameters body =>
    (word .lambdaWord ++ (parameters.print.node .parameters ++
      (mark .colon ++ guard .expression body.rule body.print))).node .lambda
  | .member value token =>
    chained value.rule value.print ((mark .dot ++ Print.name token).node .attribute)
  | .call function arguments =>
    chained function.rule function.print
      ((between .round arguments.print).node .arguments)
  | .subscript value first more =>
    chained value.rule value.print
      ((between .square (first.print ++ more.print)).node .subscripts)
  | .unit => (between .round empty).node .parenthesized
  | .tuple elements => elements.print
  | .list elements => (between .square elements.print).node .list
  | .set first more =>
    (between .curly (first.print ++ more.print)).node .dictionary
  | .dictionary entries => (between .curly entries.print).node .dictionary
  | .comprehended bracket element clauses =>
    (between bracket (element.print ++ clauses.print)).node .comprehension
  | .dictionaryComprehension pair clauses =>
    (between .curly (pair.print ++ clauses.print)).node .comprehension
  | @item place value => guard place.rule value.rule value.print
  | .single element => (element.print ++ mark .comma).node .expressionList
  | .several first second more =>
    (first.print ++ (mark .comma ++ (second.print ++ more.print))).node .expressionList
  | .target value => guard .bitOr value.rule value.print
  | .targets elements => elements.print
  | .parameter stars token => (leaves stars.tokens ++ Print.name token).node .parameter
  | .defaulted token value =>
    (Print.name token ++ (mark .equals ++ guard .expression value.rule value.print).node
      .defaultValue).node .parameter
  | .argument stars value =>
    (leaves stars.tokens ++ guard .expression value.rule value.print).node .argument
  | .keyword label value =>
    (Print.name label ++ (mark .equals ++ guard .expression value.rule value.print)).node .argument
  | .generated element clauses =>
    ((element.print ++ clauses.print).node .comprehension).node .argument
  | .unbounded => empty
  | .bound value => guard .expression value.rule value.print
  | .index value => (guard .expression value.rule value.print).node .subscript
  | .slice lower upper => (lower.print ++ (mark .colon ++ upper.print)).node .subscript
  | .stride lower upper step =>
    (lower.print ++ (mark .colon ++ (upper.print ++ (mark .colon ++ step.print)))).node .subscript
  | .entry key value =>
    guard .expression key.rule key.print ++
      (mark .colon ++ guard .expression value.rule value.print)
  | .comprehension pattern iterable clauses =>
    (word .forWord ++ (pattern.print ++
      (word .inWord ++ guard .disjunction iterable.rule iterable.print))).node .forClause ++
      clauses.print
  | .noClauses => empty
  | .each pattern iterable clauses =>
    (word .forWord ++ (pattern.print ++
      (word .inWord ++ guard .disjunction iterable.rule iterable.print))).node .forClause ++
      clauses.print
  | .filter condition clauses =>
    (word .ifWord ++ guard .disjunction condition.rule condition.print).node .ifClause ++
      clauses.print
  | .noItems => empty
  | .items first more => first.print ++ more.print
  | .noOthers => empty
  | .others first more => mark .comma ++ (first.print ++ more.print)

end Phrase

end Syntax

end QuantumScript
