import QuantumScript.Lexeme
/-!
# Kinds of tokens and nodes

A syntax tree has tokens as its leaves and nodes above them. Each has a kind, decided by the parser,
with a number and a written name. The numbers run through the symbols, the keywords, the other
tokens and the nodes in this order.
-/

namespace QuantumScript

/-- Words that cannot be names. -/
inductive Keyword
  | andWord | asWord | assertWord | breakWord | classWord | continueWord | defWord | delWord
  | elifWord | elseWord | exceptWord | falseWord | finallyWord | forWord | fromWord | globalWord
  | ifWord | importWord | inWord | isWord | lambdaWord | noneWord | nonlocalWord | notWord | orWord
  | passWord | raiseWord | returnWord | trueWord | tryWord | whileWord | withWord | yieldWord
  deriving DecidableEq, Repr

namespace Keyword

/-- All keywords with their spellings. -/
def spellings : List (List Char × Keyword) :=
  [ (['a', 'n', 'd'], .andWord), (['a', 's'], .asWord),
    (['a', 's', 's', 'e', 'r', 't'], .assertWord), (['b', 'r', 'e', 'a', 'k'], .breakWord),
    (['c', 'l', 'a', 's', 's'], .classWord),
    (['c', 'o', 'n', 't', 'i', 'n', 'u', 'e'], .continueWord), (['d', 'e', 'f'], .defWord),
    (['d', 'e', 'l'], .delWord), (['e', 'l', 'i', 'f'], .elifWord),
    (['e', 'l', 's', 'e'], .elseWord), (['e', 'x', 'c', 'e', 'p', 't'], .exceptWord),
    (['F', 'a', 'l', 's', 'e'], .falseWord), (['f', 'i', 'n', 'a', 'l', 'l', 'y'], .finallyWord),
    (['f', 'o', 'r'], .forWord), (['f', 'r', 'o', 'm'], .fromWord),
    (['g', 'l', 'o', 'b', 'a', 'l'], .globalWord), (['i', 'f'], .ifWord),
    (['i', 'm', 'p', 'o', 'r', 't'], .importWord), (['i', 'n'], .inWord), (['i', 's'], .isWord),
    (['l', 'a', 'm', 'b', 'd', 'a'], .lambdaWord), (['N', 'o', 'n', 'e'], .noneWord),
    (['n', 'o', 'n', 'l', 'o', 'c', 'a', 'l'], .nonlocalWord), (['n', 'o', 't'], .notWord),
    (['o', 'r'], .orWord), (['p', 'a', 's', 's'], .passWord),
    (['r', 'a', 'i', 's', 'e'], .raiseWord), (['r', 'e', 't', 'u', 'r', 'n'], .returnWord),
    (['T', 'r', 'u', 'e'], .trueWord), (['t', 'r', 'y'], .tryWord),
    (['w', 'h', 'i', 'l', 'e'], .whileWord), (['w', 'i', 't', 'h'], .withWord),
    (['y', 'i', 'e', 'l', 'd'], .yieldWord) ]

/-- The keyword that a word spells. -/
def ofText? (word : List Char) : Option Keyword :=
  spellings.lookup word

end Keyword

namespace Syntax

/-- Kinds of tokens. The end of input is not in any tree; it is what is seen after the last
token. -/
inductive TokenKind
  | symbol (symbol : Symbol)
  | keyword (keyword : Keyword)
  | integer | float | imaginary | quoted
  | name
  | blank | comment
  | newline | indent | dedent
  | unknown
  | endOfInput
  deriving DecidableEq, Repr

/-- Kinds of nodes. A statement that could not be read is an error node. -/
inductive NodeKind
  | file | expressionStatement | typeHint | passStatement | breakStatement | continueStatement
  | returnStatement | importStatement | fromImportStatement | importAlias | dottedName | function
  | parameters | parameter | defaultValue | returnType | classDefinition | suite | ifStatement
  | elifClause | elseClause | whileStatement | forStatement | withStatement | withItem
  | tryStatement | exceptClause | finallyClause | raiseStatement | assertStatement | delStatement
  | globalStatement | decorator | expressionList | conditional | lambda | yield | binary | unary
  | chain | name | literal | parenthesized | list | dictionary | comprehension | forClause
  | ifClause | arguments | argument | subscripts | subscript | attribute
  | error
  deriving DecidableEq, Repr

/-- All kinds that have a number. Two of them mark the ends of the numbering. -/
inductive Kind
  | undecided
  | token (kind : TokenKind)
  | node (kind : NodeKind)
  | last
  deriving DecidableEq, Repr

end Syntax

/-- Written name of a symbol. -/
def Symbol.written : Symbol → String
  | .semicolon => "SEMICOLON"
  | .comma => "COMMA"
  | .dot => "DOT"
  | .leftParen => "L_PAREN"
  | .rightParen => "R_PAREN"
  | .leftBrace => "L_CURLY"
  | .rightBrace => "R_CURLY"
  | .leftBracket => "L_BRACK"
  | .rightBracket => "R_BRACK"
  | .at => "AT"
  | .tilde => "TILDE"
  | .colon => "COLON"
  | .equals => "EQ"
  | .bang => "BANG"
  | .less => "L_ANGLE"
  | .greater => "R_ANGLE"
  | .minus => "MINUS"
  | .ampersand => "AMP"
  | .bar => "PIPE"
  | .plus => "PLUS"
  | .star => "STAR"
  | .slash => "SLASH"
  | .caret => "CARET"
  | .percent => "PERCENT"
  | .arrow => "THIN_ARROW"
  | .doubleStar => "STAR2"
  | .doubleSlash => "SLASH2"
  | .equality => "EQ2"
  | .inequality => "NEQ"
  | .lessEqual => "LTEQ"
  | .greaterEqual => "GTEQ"
  | .shiftLeft => "SHL"
  | .shiftRight => "SHR"
  | .augmented => "AUG_ASSIGN"

/-- Written name of a keyword. -/
def Keyword.written : Keyword → String
  | .andWord => "AND_KW"
  | .asWord => "AS_KW"
  | .assertWord => "ASSERT_KW"
  | .breakWord => "BREAK_KW"
  | .classWord => "CLASS_KW"
  | .continueWord => "CONTINUE_KW"
  | .defWord => "DEF_KW"
  | .delWord => "DEL_KW"
  | .elifWord => "ELIF_KW"
  | .elseWord => "ELSE_KW"
  | .exceptWord => "EXCEPT_KW"
  | .falseWord => "FALSE_KW"
  | .finallyWord => "FINALLY_KW"
  | .forWord => "FOR_KW"
  | .fromWord => "FROM_KW"
  | .globalWord => "GLOBAL_KW"
  | .ifWord => "IF_KW"
  | .importWord => "IMPORT_KW"
  | .inWord => "IN_KW"
  | .isWord => "IS_KW"
  | .lambdaWord => "LAMBDA_KW"
  | .noneWord => "NONE_KW"
  | .nonlocalWord => "NONLOCAL_KW"
  | .notWord => "NOT_KW"
  | .orWord => "OR_KW"
  | .passWord => "PASS_KW"
  | .raiseWord => "RAISE_KW"
  | .returnWord => "RETURN_KW"
  | .trueWord => "TRUE_KW"
  | .tryWord => "TRY_KW"
  | .whileWord => "WHILE_KW"
  | .withWord => "WITH_KW"
  | .yieldWord => "YIELD_KW"

namespace Syntax

namespace TokenKind

/-- Written name of a token kind. -/
def written : TokenKind → String
  | .symbol s => s.written
  | .keyword k => k.written
  | .integer => "INT_NUMBER"
  | .float => "FLOAT_NUMBER"
  | .imaginary => "IMAG_NUMBER"
  | .quoted => "STRING"
  | .name => "IDENT"
  | .blank => "WHITESPACE"
  | .comment => "COMMENT"
  | .newline => "NEWLINE"
  | .indent => "INDENT"
  | .dedent => "DEDENT"
  | .unknown => "ERROR"
  | .endOfInput => "EOF"

/-- Tokens that the grammar does not see. -/
def isTrivia : TokenKind → Bool
  | .blank | .comment => true
  | _ => false

def isKeyword : TokenKind → Bool
  | .keyword _ => true
  | _ => false

/-- Tokens that are literals by themselves. -/
def isLiteral : TokenKind → Bool
  | .integer | .float | .imaginary | .quoted => true
  | .keyword .trueWord | .keyword .falseWord | .keyword .noneWord => true
  | _ => false

end TokenKind

namespace NodeKind

/-- Written name of a node kind. -/
def written : NodeKind → String
  | .file => "SOURCE_FILE"
  | .expressionStatement => "EXPR_STMT"
  | .typeHint => "TYPE_ANNOTATION"
  | .passStatement => "PASS_STMT"
  | .breakStatement => "BREAK_STMT"
  | .continueStatement => "CONTINUE_STMT"
  | .returnStatement => "RETURN_STMT"
  | .importStatement => "IMPORT_STMT"
  | .fromImportStatement => "FROM_IMPORT_STMT"
  | .importAlias => "IMPORT_ALIAS"
  | .dottedName => "DOTTED_NAME"
  | .function => "FUNC_DEF"
  | .parameters => "PARAM_LIST"
  | .parameter => "PARAM"
  | .defaultValue => "DEFAULT_VALUE"
  | .returnType => "RET_TYPE"
  | .classDefinition => "CLASS_DEF"
  | .suite => "SUITE"
  | .ifStatement => "IF_STMT"
  | .elifClause => "ELIF_CLAUSE"
  | .elseClause => "ELSE_CLAUSE"
  | .whileStatement => "WHILE_STMT"
  | .forStatement => "FOR_STMT"
  | .withStatement => "WITH_STMT"
  | .withItem => "WITH_ITEM"
  | .tryStatement => "TRY_STMT"
  | .exceptClause => "EXCEPT_CLAUSE"
  | .finallyClause => "FINALLY_CLAUSE"
  | .raiseStatement => "RAISE_STMT"
  | .assertStatement => "ASSERT_STMT"
  | .delStatement => "DEL_STMT"
  | .globalStatement => "GLOBAL_STMT"
  | .decorator => "DECORATOR"
  | .expressionList => "TESTLIST"
  | .conditional => "COND_EXPR"
  | .lambda => "LAMBDA_EXPR"
  | .yield => "YIELD_EXPR"
  | .binary => "BIN_EXPR"
  | .unary => "PREFIX_EXPR"
  | .chain => "POWER"
  | .name => "NAME"
  | .literal => "LITERAL"
  | .parenthesized => "PAREN_EXPR"
  | .list => "LIST_EXPR"
  | .dictionary => "DICT_EXPR"
  | .comprehension => "COMPREHENSION"
  | .forClause => "COMP_FOR"
  | .ifClause => "COMP_IF"
  | .arguments => "ARG_LIST"
  | .argument => "ARGUMENT"
  | .subscripts => "SUBSCRIPT_LIST"
  | .subscript => "SUBSCRIPT"
  | .attribute => "ATTRIBUTE"
  | .error => "ERROR"

/-- Statements that hold a block, and so end without a line end of their own. -/
def isCompound : NodeKind → Bool
  | .function | .classDefinition | .ifStatement | .whileStatement | .forStatement
  | .withStatement | .tryStatement => true
  | _ => false

/-- Statements that stand on one line. -/
def isSimple : NodeKind → Bool
  | .expressionStatement | .passStatement | .breakStatement | .continueStatement
  | .returnStatement | .importStatement | .fromImportStatement | .raiseStatement
  | .assertStatement | .delStatement | .globalStatement => true
  | _ => false

/-- Nodes for a whole statement. -/
def isStatement (kind : NodeKind) : Bool := kind.isCompound || kind.isSimple

/-- Nodes that may follow an atom: a call, a subscript or an attribute. -/
def isTrailer : NodeKind → Bool
  | .arguments | .subscripts | .attribute => true
  | _ => false

/-- Nodes that are expressions. -/
def isExpression : NodeKind → Bool
  | .expressionList | .conditional | .lambda | .yield | .binary | .unary | .chain | .name
  | .literal | .parenthesized | .list | .dictionary | .comprehension => true
  | _ => false

end NodeKind

namespace Kind

/-- All kinds in the order of their numbers. -/
def all : List Kind :=
  let symbols : List Symbol :=
  [ .semicolon, .comma, .dot, .leftParen, .rightParen, .leftBrace, .rightBrace, .leftBracket,
    .rightBracket, .at, .tilde, .colon, .equals, .bang, .less, .greater, .minus, .ampersand, .bar,
    .plus, .star, .slash, .caret, .percent, .arrow, .doubleStar, .doubleSlash, .equality,
    .inequality, .lessEqual, .greaterEqual, .shiftLeft, .shiftRight, .augmented ]
  let nodes : List NodeKind :=
  [ .file, .expressionStatement, .typeHint, .passStatement, .breakStatement, .continueStatement,
    .returnStatement, .importStatement, .fromImportStatement, .importAlias, .dottedName, .function,
    .parameters, .parameter, .defaultValue, .returnType, .classDefinition, .suite, .ifStatement,
    .elifClause, .elseClause, .whileStatement, .forStatement, .withStatement, .withItem,
    .tryStatement, .exceptClause, .finallyClause, .raiseStatement, .assertStatement, .delStatement,
    .globalStatement, .decorator, .expressionList, .conditional, .lambda, .yield, .binary, .unary,
    .chain, .name, .literal, .parenthesized, .list, .dictionary, .comprehension, .forClause,
    .ifClause, .arguments, .argument, .subscripts, .subscript, .attribute ]
  let tokens : List TokenKind :=
  [ .integer, .float, .imaginary, .quoted, .name, .blank, .comment, .newline, .indent, .dedent,
    .unknown ]
  List.flatten
    [ [.undecided, .token .endOfInput],
      symbols.map fun symbol => .token (.symbol symbol),
      Keyword.spellings.map fun entry => .token (.keyword entry.2),
      tokens.map .token,
      nodes.map .node,
      [.last] ]

/-- The kind with a number. -/
def ofCode? (code : Nat) : Option Kind := all[code]?

/-- Written name of a kind. -/
def written : Kind → String
  | .undecided => "TOMBSTONE"
  | .token kind => kind.written
  | .node kind => kind.written
  | .last => "__LAST"

end Kind

end Syntax

end QuantumScript
