import QuantumScript.Proofs.Parsing.Everywhere
/-!
# Shapes of nodes

What the nodes of a source without errors are made of. Each kind of node has a shape, a regular
expression over what its children count as, and the children of such a node fit it. Blanks and comments
do not count. Whether children fit a shape is told by going through them from the left, with a list of the
shapes of which one is still to be fit.
-/

namespace QuantumScript

namespace Syntax

/-- What a child counts as among the children of a node. -/
inductive Piece
  | word (kind : TokenKind)
  | name
  /-- An expression that is no name. -/
  | compound
  | statement
  | part (kind : NodeKind)
  /-- A node that is part of no other. -/
  | stray
  deriving DecidableEq, Repr

/-- A regular expression over pieces. -/
inductive Shape
  /-- No piece. -/
  | empty
  /-- One of the pieces. -/
  | one (pieces : List Piece)
  | seq (first second : Shape)
  | either (first second : Shape)
  /-- Any number of rounds. -/
  | many (round : Shape)
  deriving DecidableEq, Repr

namespace Shape

/-- The pieces make the shape. -/
def Fits : Shape → List Piece → Prop
  | .empty, pieces => pieces = []
  | .one own, pieces => ∃ piece ∈ own, pieces = [piece]
  | .seq first second, pieces =>
    ∃ front rest, pieces = front ++ rest ∧ first.Fits front ∧ second.Fits rest
  | .either first second, pieces => first.Fits pieces ∨ second.Fits pieces
  | .many round, pieces => ∃ rounds, pieces = List.flatten rounds ∧ ∀ front ∈ rounds, round.Fits front

def mayBeEmpty : Shape → Bool
  | .empty | .many _ => true
  | .one _ => false
  | .seq first second => first.mayBeEmpty && second.mayBeEmpty
  | .either first second => first.mayBeEmpty || second.mayBeEmpty

/-- One shape after another; nothing stands in front if the first is empty. -/
def join : Shape → Shape → Shape
  | .empty, second => second
  | first, second => .seq first second

/-- What can be left of a shape after a piece. -/
def after (piece : Piece) : Shape → List Shape
  | .empty => []
  | .one own => if own.contains piece then [.empty] else []
  | .seq first second =>
    (after piece first).map (·.join second) ++ if first.mayBeEmpty then after piece second else []
  | .either first second => after piece first ++ after piece second
  | .many round => (after piece round).map (·.join (.many round))

private theorem fits_join {first second : Shape} {pieces : List Piece} (h : (first.join second).Fits pieces) :
    ∃ front rest, pieces = front ++ rest ∧ first.Fits front ∧ second.Fits rest := by
  cases first with
  | empty => exact ⟨[], pieces, rfl, rfl, h⟩
  | _ => exact h

theorem fits_nil {shape : Shape} (h : shape.mayBeEmpty = true) : shape.Fits [] := by
  induction shape with
  | empty => rfl
  | one own => cases h
  | seq first second ihfirst ihsecond =>
    obtain ⟨hfirst, hsecond⟩ := Bool.and_eq_true _ _ ▸ h
    exact ⟨[], [], rfl, ihfirst hfirst, ihsecond hsecond⟩
  | either first second ihfirst ihsecond =>
    rcases Bool.or_eq_true _ _ ▸ h with hfirst | hsecond
    · exact .inl (ihfirst hfirst)
    · exact .inr (ihsecond hsecond)
  | many round ih => exact ⟨[], rfl, nofun⟩

theorem fits_cons {shape left : Shape} {piece : Piece} {pieces : List Piece}
    (hleft : left ∈ shape.after piece) (h : left.Fits pieces) : shape.Fits (piece :: pieces) := by
  induction shape generalizing left pieces with
  | empty => cases hleft
  | one own =>
    rw [after] at hleft
    split at hleft
    · obtain rfl := List.mem_singleton.mp hleft
      exact ⟨piece, List.contains_iff_mem.mp ‹_›, congrArg _ h⟩
    · cases hleft
  | seq first second ihfirst ihsecond =>
    rcases List.mem_append.mp hleft with hleft | hleft
    · obtain ⟨start, hstart, rfl⟩ := List.mem_map.mp hleft
      obtain ⟨front, rest, rfl, hfront, hrest⟩ := fits_join h
      exact ⟨piece :: front, rest, rfl, ihfirst hstart hfront, hrest⟩
    · split at hleft
      · exact ⟨[], piece :: pieces, rfl, fits_nil ‹_›, ihsecond hleft h⟩
      · cases hleft
  | either first second ihfirst ihsecond =>
    exact (List.mem_append.mp hleft).imp (ihfirst · h) (ihsecond · h)
  | many round ih =>
    obtain ⟨start, hstart, rfl⟩ := List.mem_map.mp hleft
    obtain ⟨front, rest, rfl, hfront, rounds, rfl, hrounds⟩ := fits_join h
    exact ⟨(piece :: front) :: rounds, rfl, List.forall_mem_cons.mpr ⟨ih hstart hfront, hrounds⟩⟩

/-- All pieces that the shape speaks of. -/
def pieces : Shape → List Piece
  | .empty => []
  | .one own => own
  | .seq first second | .either first second => first.pieces ++ second.pieces
  | .many round => round.pieces

/-- Every piece that makes a shape is one that the shape speaks of. -/
theorem Fits.mem_pieces {shape : Shape} {pieces : List Piece} (h : shape.Fits pieces) :
    ∀ piece ∈ pieces, piece ∈ shape.pieces := by
  induction shape generalizing pieces with
  | empty => exact h ▸ nofun
  | one own =>
    obtain ⟨piece, hown, rfl⟩ := h
    exact List.forall_mem_singleton.mpr hown
  | seq first second ihfirst ihsecond =>
    obtain ⟨front, rest, rfl, hfront, hrest⟩ := h
    refine List.forall_mem_append.mpr ⟨fun piece hmem => ?_, fun piece hmem => ?_⟩
    · exact List.mem_append_left _ (ihfirst hfront piece hmem)
    · exact List.mem_append_right _ (ihsecond hrest piece hmem)
  | either first second ihfirst ihsecond =>
    rcases h with hfirst | hsecond
    · exact fun piece hmem => List.mem_append_left _ (ihfirst hfirst piece hmem)
    · exact fun piece hmem => List.mem_append_right _ (ihsecond hsecond piece hmem)
  | many round ih =>
    obtain ⟨rounds, rfl, hrounds⟩ := h
    intro piece hmem
    obtain ⟨front, hfront, hpiece⟩ := List.mem_flatten.mp hmem
    exact ih (hrounds front hfront) piece hpiece

/-- So many pieces of some sort are in all that makes the shape. -/
def least (p : Piece → Bool) : Shape → Nat
  | .empty | .many _ => 0
  | .one own => if own.all p then 1 else 0
  | .seq first second => first.least p + second.least p
  | .either first second => min (first.least p) (second.least p)

theorem Fits.least_le {shape : Shape} {pieces : List Piece} (h : shape.Fits pieces)
    (p : Piece → Bool) : shape.least p ≤ pieces.countP p := by
  induction shape generalizing pieces with
  | empty => exact Nat.zero_le _
  | one own =>
    obtain ⟨piece, hown, rfl⟩ := h
    rw [least]
    split
    · rename_i hall
      simp [List.all_eq_true.mp hall piece hown]
    · exact Nat.zero_le _
  | seq first second ihfirst ihsecond =>
    obtain ⟨front, rest, rfl, hfront, hrest⟩ := h
    rw [least, List.countP_append]
    exact Nat.add_le_add (ihfirst hfront) (ihsecond hrest)
  | either first second ihfirst ihsecond =>
    rcases h with hfirst | hsecond
    · exact Nat.le_trans (Nat.min_le_left _ _) (ihfirst hfirst)
    · exact Nat.le_trans (Nat.min_le_right _ _) (ihsecond hsecond)
  | many round ih => exact Nat.zero_le _

/-- A sort of pieces that no shape can do without is among those that make it. -/
theorem Fits.exists_mem {shape : Shape} {pieces : List Piece} (h : shape.Fits pieces)
    {p : Piece → Bool} (hleast : 0 < shape.least p) : ∃ piece ∈ pieces, p piece = true :=
  List.countP_pos_iff.mp (Nat.lt_of_lt_of_le hleast (h.least_le p))

/-- So many pieces of one sort more than of the other are in all that makes the shape. -/
def surplus (p q : Piece → Bool) : Shape → Option Int
  | .empty => some 0
  | .one own =>
    if own.all fun piece => p piece && !q piece then some 1
    else if own.all fun piece => q piece && !p piece then some (-1)
    else if own.all fun piece => p piece == q piece then some 0
    else none
  | .seq first second => do
    let front ← first.surplus p q
    let rest ← second.surplus p q
    some (front + rest)
  | .either first second =>
    if first.surplus p q = second.surplus p q then first.surplus p q else none
  | .many round => if round.surplus p q = some 0 then some 0 else none

theorem Fits.countP_eq {shape : Shape} {pieces : List Piece} (h : shape.Fits pieces)
    {p q : Piece → Bool} {more : Int} (hmore : shape.surplus p q = some more) :
    (pieces.countP p : Int) = pieces.countP q + more := by
  induction shape generalizing pieces more with
  | empty =>
    cases h
    cases hmore
    rfl
  | one own =>
    obtain ⟨piece, hown, rfl⟩ := h
    rw [surplus] at hmore
    repeat' split at hmore
    all_goals cases hmore
    all_goals
      rename_i hall
      have hpiece := List.all_eq_true.mp hall piece hown
      simp_all
  | seq first second ihfirst ihsecond =>
    obtain ⟨front, rest, rfl, hfront, hrest⟩ := h
    obtain ⟨early, hearly, hlater⟩ := Option.bind_eq_some_iff.mp hmore
    obtain ⟨late, hlate, hsum⟩ := Option.bind_eq_some_iff.mp hlater
    cases hsum
    rw [List.countP_append, List.countP_append]
    have hfront := ihfirst hfront hearly
    have hrest := ihsecond hrest hlate
    omega
  | either first second ihfirst ihsecond =>
    rw [surplus] at hmore
    split at hmore
    · rename_i hsame
      rcases h with hfirst | hsecond
      · exact ihfirst hfirst hmore
      · exact ihsecond hsecond (hsame ▸ hmore)
    · cases hmore
  | many round ih =>
    rw [surplus] at hmore
    split at hmore <;> cases hmore
    obtain ⟨rounds, rfl, hrounds⟩ := h
    induction rounds with
    | nil => rfl
    | cons front rounds ihrounds =>
      obtain ⟨hfront, hrounds⟩ := List.forall_mem_cons.mp hrounds
      rw [List.flatten_cons, List.countP_append, List.countP_append]
      have hfront := ih hfront ‹_›
      have hrest := ihrounds hrounds
      omega

/-- Shapes in turn. -/
def steps : List Shape → Shape
  | [] => .empty
  | [shape] => shape
  | shape :: shapes => .seq shape (steps shapes)

def optional (shape : Shape) : Shape := .either .empty shape

def word (kind : TokenKind) : Shape := .one [.word kind]

/-- A token of one of the kinds. -/
def words (kinds : List TokenKind) : Shape := .one (kinds.map .word)

def part (kind : NodeKind) : Shape := .one [.part kind]

def name : Shape := .one [.name]

/-- Any expression. -/
def expr : Shape := .one [.name, .compound]

/-- Items with commas between them, at least one. -/
def list (item : Shape) : Shape := .seq item (.many (.seq (word (.symbol .comma)) item))

/-- Items with commas between them and perhaps after the last one, or none. -/
def items (item : Shape) : Shape :=
  .seq (.many (.seq item (word (.symbol .comma)))) (optional item)

/-- The colon and the suite of a compound statement. -/
def block : Shape := .seq (word (.symbol .colon)) (part .suite)

/-- Statements with the marks and line ends between them. -/
def statements : Shape :=
  .many (.one [.statement, .word (.symbol .semicolon), .word .newline])

/-- The clauses of a comprehension. -/
def clauses : Shape := .seq (part .forClause) (.many (.one [.part .forClause, .part .ifClause]))

/-- Operators between two operands. -/
def operator : Shape :=
  .either
    (words
      [ .keyword .orWord, .keyword .andWord, .keyword .inWord, .keyword .isWord, .symbol .less,
        .symbol .greater, .symbol .equality, .symbol .inequality, .symbol .lessEqual,
        .symbol .greaterEqual, .symbol .bar, .symbol .caret, .symbol .ampersand,
        .symbol .shiftLeft, .symbol .shiftRight, .symbol .plus, .symbol .minus, .symbol .star,
        .symbol .slash, .symbol .doubleSlash, .symbol .percent, .symbol .at, .symbol .doubleStar ])
    (.either
      (.seq (word (.keyword .notWord)) (word (.keyword .inWord)))
      (.seq (word (.keyword .isWord)) (word (.keyword .notWord))))

/-- An element of a comprehension and its clauses, with brackets or without. In brackets there may be
more items after it. -/
def comprehension : Shape :=
  .either (.seq expr clauses) <| steps
    [ words [.symbol .leftParen, .symbol .leftBracket, .symbol .leftBrace],
      .many (.one [.name, .compound, .word (.symbol .comma), .word (.symbol .colon)]),
      expr,
      part .forClause,
      .many (.one
        [ .name, .compound, .part .forClause, .part .ifClause, .word (.symbol .comma),
          .word (.symbol .colon) ]),
      words [.symbol .rightParen, .symbol .rightBracket, .symbol .rightBrace] ]

/-- The shape of a node of the kind. -/
def ofKind : NodeKind → Shape
  | .file => .many (.one [.statement, .word (.symbol .semicolon), .word .newline, .word .dedent])
  | .expressionStatement => steps
    [ expr, optional (part .typeHint),
      .either (.seq (word (.symbol .augmented)) expr) (.many (.seq (word (.symbol .equals)) expr)) ]
  | .typeHint => .seq (word (.symbol .colon)) expr
  | .passStatement => word (.keyword .passWord)
  | .breakStatement => word (.keyword .breakWord)
  | .continueStatement => word (.keyword .continueWord)
  | .returnStatement => .seq (word (.keyword .returnWord)) (optional expr)
  | .importStatement => .seq (word (.keyword .importWord)) (list (part .importAlias))
  | .fromImportStatement => steps
    [ word (.keyword .fromWord), part .dottedName, word (.keyword .importWord),
      .either (word (.symbol .star)) <| .either (list (part .importAlias)) <| steps
        [ word (.symbol .leftParen), list (part .importAlias), optional (word (.symbol .comma)),
          word (.symbol .rightParen) ] ]
  | .importAlias =>
    .seq (.one [.part .dottedName, .name]) (optional (.seq (word (.keyword .asWord)) name))
  | .dottedName => steps
    [.many (word (.symbol .dot)), name, .many (.seq (word (.symbol .dot)) name)]
  | .function => steps
    [ .many (part .decorator), word (.keyword .defWord), name, part .parameters,
      optional (part .returnType), block ]
  | .parameters => .either (items (part .parameter)) <| steps
    [word (.symbol .leftParen), items (part .parameter), word (.symbol .rightParen)]
  | .parameter => steps
    [ optional (words [.symbol .star, .symbol .doubleStar]), name, optional (part .typeHint),
      optional (part .defaultValue) ]
  | .defaultValue => .seq (word (.symbol .equals)) expr
  | .returnType => .seq (word (.symbol .arrow)) expr
  | .classDefinition => steps
    [ .many (part .decorator), word (.keyword .classWord), name, optional (part .arguments), block ]
  | .suite => .either statements <| steps
    [word .newline, word .indent, statements, optional (word .dedent)]
  | .ifStatement => steps
    [ word (.keyword .ifWord), expr, block, .many (part .elifClause), optional (part .elseClause) ]
  | .elifClause => steps [word (.keyword .elifWord), expr, block]
  | .elseClause => .seq (word (.keyword .elseWord)) block
  | .whileStatement => steps
    [word (.keyword .whileWord), expr, block, optional (part .elseClause)]
  | .forStatement => steps
    [ word (.keyword .forWord), expr, word (.keyword .inWord), expr, block,
      optional (part .elseClause) ]
  | .withStatement => steps [word (.keyword .withWord), list (part .withItem), block]
  | .withItem => .seq expr (optional (.seq (word (.keyword .asWord)) expr))
  | .tryStatement => steps
    [ word (.keyword .tryWord), block,
      .either (part .finallyClause) <| steps
        [ part .exceptClause, .many (part .exceptClause), optional (part .elseClause),
          optional (part .finallyClause) ] ]
  | .exceptClause => steps
    [ word (.keyword .exceptWord),
      optional (.seq expr (optional (.seq (word (.keyword .asWord)) name))), block ]
  | .finallyClause => .seq (word (.keyword .finallyWord)) block
  | .raiseStatement => .seq (word (.keyword .raiseWord)) <| optional <|
    .seq expr (optional (.seq (word (.keyword .fromWord)) expr))
  | .assertStatement => steps
    [word (.keyword .assertWord), expr, optional (.seq (word (.symbol .comma)) expr)]
  | .delStatement => .seq (word (.keyword .delWord)) expr
  | .globalStatement => .seq (words [.keyword .globalWord, .keyword .nonlocalWord]) (list name)
  | .decorator => steps [word (.symbol .at), expr, word .newline]
  | .expressionList => .seq (list expr) (optional (word (.symbol .comma)))
  | .conditional => steps
    [expr, word (.keyword .ifWord), expr, word (.keyword .elseWord), expr]
  | .lambda => steps [word (.keyword .lambdaWord), part .parameters, word (.symbol .colon), expr]
  | .yield => .seq (word (.keyword .yieldWord)) <|
    .either (optional expr) (.seq (word (.keyword .fromWord)) expr)
  | .binary => steps [expr, operator, expr]
  | .unary =>
    .seq (words [.symbol .minus, .symbol .plus, .symbol .tilde, .keyword .notWord]) expr
  | .chain =>
    let trailer := Shape.one [.part .arguments, .part .subscripts, .part .attribute]
    steps [expr, trailer, .many trailer]
  | .name => word .name
  | .literal => .either (.seq (word .quoted) (.many (word .quoted))) <| words
    [ .integer, .float, .imaginary, .keyword .trueWord, .keyword .falseWord,
      .keyword .noneWord ]
  | .parenthesized => steps [word (.symbol .leftParen), optional expr, word (.symbol .rightParen)]
  | .list => steps [word (.symbol .leftBracket), items expr, word (.symbol .rightBracket)]
  | .dictionary => steps
    [ word (.symbol .leftBrace), items (.seq expr (optional (.seq (word (.symbol .colon)) expr))),
      word (.symbol .rightBrace) ]
  | .comprehension => comprehension
  | .forClause => steps [word (.keyword .forWord), expr, word (.keyword .inWord), expr]
  | .ifClause => .seq (word (.keyword .ifWord)) expr
  | .arguments => steps
    [word (.symbol .leftParen), items (part .argument), word (.symbol .rightParen)]
  | .argument => steps
    [ optional (words [.symbol .star, .symbol .doubleStar]),
      optional (.seq name (word (.symbol .equals))), expr ]
  | .subscripts => steps
    [word (.symbol .leftBracket), items (part .subscript), word (.symbol .rightBracket)]
  | .subscript =>
    let bounds := Shape.seq (word (.symbol .colon)) <|
      .seq (optional expr) (optional (.seq (word (.symbol .colon)) (optional expr)))
    .either bounds (.seq expr (optional bounds))
  | .attribute => .seq (word (.symbol .dot)) name
  | .error => .one []

end Shape

/-- Shapes of which one is to be fit. -/
abbrev Shapes := List Shape

namespace Shapes

def after (shapes : Shapes) (piece : Piece) : Shapes := (shapes.flatMap (Shape.after piece)).eraseDups

def afterAll (shapes : Shapes) (pieces : List Piece) : Shapes := pieces.foldl after shapes

/-- One of the shapes needs no more pieces. -/
def done (shapes : Shapes) : Bool := shapes.any Shape.mayBeEmpty

theorem afterAll_append (shapes : Shapes) (pieces more : List Piece) :
    shapes.afterAll (pieces ++ more) = (shapes.afterAll pieces).afterAll more :=
  List.foldl_append

theorem afterAll_none (pieces : List Piece) : afterAll [] pieces = [] := by
  induction pieces with
  | nil => rfl
  | cons piece rest ih => exact ih

/-- Pieces that leave no more to be fit make one of the shapes. -/
theorem fits_of_done {shapes : Shapes} {pieces : List Piece}
    (h : (shapes.afterAll pieces).done = true) : ∃ shape ∈ shapes, shape.Fits pieces := by
  induction pieces generalizing shapes with
  | nil =>
    obtain ⟨shape, hmem, hempty⟩ := List.any_eq_true.mp h
    exact ⟨shape, hmem, Shape.fits_nil hempty⟩
  | cons piece rest ih =>
    obtain ⟨left, hleft, hfits⟩ := ih h
    obtain ⟨shape, hmem, hafter⟩ := List.mem_flatMap.mp (List.mem_eraseDups.mp hleft)
    exact ⟨shape, hmem, Shape.fits_cons hafter hfits⟩

end Shapes

/-- What a token counts as. Blanks and comments do not count, and the end of input is in no tree. -/
def TokenKind.piece? (kind : TokenKind) : Option Piece :=
  if kind.isTrivia || kind = .endOfInput then none else some (.word kind)

namespace NodeKind

def piece (kind : NodeKind) : Piece :=
  if kind = .name then .name
  else if kind.isExpression then .compound
  else if kind.isStatement then .statement
  else if kind = .file || kind = .error then .stray
  else .part kind

private theorem eq_of_part {kind other : NodeKind} (h : kind.piece = .part other) : kind = other := by
  unfold piece at h
  repeat' split at h
  all_goals cases h
  rfl

end NodeKind

namespace Tree

/-- What a tree counts as, if it counts. -/
def piece? : Tree → Option Piece
  | .token kind _ => kind.piece?
  | .node kind _ => some kind.piece

/-- The children that count, as what they count. -/
def pieces (trees : List Tree) : List Piece := trees.filterMap piece?

theorem mem_pieces {trees : List Tree} {piece : Piece} :
    piece ∈ pieces trees ↔ ∃ tree ∈ trees, tree.piece? = some piece := List.mem_filterMap

theorem pieces_append (trees others : List Tree) :
    pieces (trees ++ others) = pieces trees ++ pieces others :=
  List.filterMap_append

/-- A token that counts as a word is of the kind. -/
theorem tokenKind?_of_word {tree : Tree} {kind : TokenKind} (h : tree.piece? = some (.word kind)) :
    tree.tokenKind? = some kind := by
  cases tree with
  | token other text =>
    rw [piece?, TokenKind.piece?] at h
    split at h <;> cases h
    rfl
  | node other children =>
    have hpiece : other.piece = .word kind := Option.some.inj h
    unfold NodeKind.piece at hpiece
    repeat' split at hpiece
    all_goals cases hpiece

/-- A node that counts as a part of some kind is of this kind. -/
theorem nodeKind?_of_part {tree : Tree} {kind : NodeKind} (h : tree.piece? = some (.part kind)) :
    tree.nodeKind? = some kind := by
  cases tree with
  | token other text =>
    rw [piece?, TokenKind.piece?] at h
    split at h <;> cases h
  | node other children => exact congrArg some (NodeKind.eq_of_part (Option.some.inj h))

/-- The children of every node in the tree make its shape. -/
def Formed : Tree → Prop := Each fun kind children => (Shape.ofKind kind).Fits (pieces children)

private theorem piece?_bare (tree : Tree) : tree.bare.piece? = tree.piece? := by
  cases tree <;> rfl

theorem piece?_trivia {tree : Tree} (h : tree.isTrivia = true) : tree.piece? = none := by
  cases tree with
  | node kind children => cases h
  | token kind text => exact if_pos (Bool.or_eq_true_iff.mpr (.inl h))

private theorem pieces_bareAll (trees : List Tree) : pieces (bareAll trees) = pieces trees := by
  induction trees with
  | nil => rfl
  | cons tree trees ih =>
    rw [bareAll]
    split
    · rw [ih, pieces, pieces, List.filterMap_cons, piece?_trivia ‹_›]
    · rw [pieces, List.filterMap_cons, piece?_bare, ← pieces, ih, pieces, pieces, List.filterMap_cons]

/-- Blanks and comments do not matter. -/
theorem formed_of_bare {tree : Tree} : tree.bare.Formed → tree.Formed :=
  each_of_bare fun _ children h => pieces_bareAll children ▸ h

end Tree

end Syntax

end QuantumScript
