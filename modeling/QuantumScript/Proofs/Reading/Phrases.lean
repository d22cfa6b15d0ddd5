import QuantumScript.Proofs.Printing.Phrases
import QuantumScript.Proofs.Reading.Senses
/-!
# Reading phrases

The abstract syntax of a phrase, without places, told by the phrase itself. The print of a phrase is
read as its abstract syntax.
-/

namespace QuantumScript

namespace Ast.Expr

open Syntax

/-- The expression where another rule reads it: in parentheses if its own rule is looser. -/
def guard (level rule : Rule) (value : Expr) : Expr :=
  if level.rank < rule.rank then .parenthesized nowhere (some value) else value

/-- One more trailer for a chain. -/
def more (trailer : Trailer) : Expr → Expr
  | .chain extent atom trailers => .chain extent atom (trailers ++ [trailer])
  | value => .chain nowhere (some value) [trailer]

/-- A trailer after an expression; a chain has all of its trailers in one list. -/
def chained (rule : Rule) (value : Expr) (trailer : Trailer) : Expr :=
  if rule = .chain then value.more trailer
  else .chain nowhere (some (guard .atom rule value)) [trailer]

end Ast.Expr

namespace Syntax

open Ast (nowhere)

def Token.sense (token : Token) : Ast.Leaf := ⟨token.kind, String.ofList token.text, ⟨0, 0⟩⟩

def Word.sense {kinds : List TokenKind} (word : Word kinds) : Ast.Leaf := word.token.sense

def Name.ast (name : Name) : Ast.Name := ⟨nowhere, some name.token.sense⟩

/-- What phrases of each sort are read as. -/
@[reducible] def Part.Meaning : Part → Type
  | .expression | .item _ | .row _ | .targets => Ast.Expr
  | .parameter => Ast.Parameter
  | .argument => Ast.Argument
  | .bound => Option Ast.Expr
  | .index => Ast.Subscript
  | .entry => Ast.Expr × Ast.Expr
  | .comprehension | .clauses => List Ast.Clause
  | .items part | .others part => List part.Meaning

def Stars.any : Stars → Bool
  | .none => false
  | .one | .two => true

namespace Phrase

def ast {part : Part} : Phrase part → part.Meaning
  | .name token => .name (Name.ast token)
  | .literal token => .literal nowhere [token.sense]
  | .strings first more => .literal nowhere (first.sense :: more.map Word.sense)
  | .sign prefixed value =>
    .unary nowhere (some (.symbol prefixed.symbol)) (some (.guard .factor value.rule value.ast))
  | .negation value =>
    .unary nowhere (some (.keyword .notWord)) (some (.guard .negation value.rule value.ast))
  | .binary operator left right =>
    .binary nowhere (operator.tokens.head?.map Token.kind)
      (some (.guard operator.rule left.rule left.ast))
      (some (.guard operator.rule.tighter right.rule right.ast))
  | .power base exponent =>
    .binary nowhere (some (.symbol .doubleStar)) (some (.guard .chain base.rule base.ast))
      (some (.guard .factor exponent.rule exponent.ast))
  | .conditional value condition other =>
    .conditional nowhere [.guard .disjunction value.rule value.ast,
      .guard .disjunction condition.rule condition.ast, .guard .expression other.rule other.ast]
  | .lambda parameters body =>
    .lambda nowhere (some ⟨nowhere, parameters.ast⟩)
      (some (.guard .expression body.rule body.ast))
  | .member value token =>
    .chained value.rule value.ast (.attribute nowhere (some (Name.ast token)))
  | .call function arguments => .chained function.rule function.ast (.arguments nowhere arguments.ast)
  | .subscript value first more =>
    .chained value.rule value.ast (.subscripts nowhere (first.ast :: more.ast))
  | .unit => .parenthesized nowhere none
  | .tuple elements => elements.ast
  | .list elements => .list nowhere elements.ast
  | .set first more => .dictionary nowhere (first.ast :: more.ast)
  | .dictionary entries => .dictionary nowhere (entries.ast.flatMap fun entry => [entry.1, entry.2])
  | .comprehended bracket element clauses =>
    .comprehension nowhere [element.ast] clauses.ast (some (.symbol bracket.opening)) false
  | .dictionaryComprehension pair clauses =>
    .comprehension nowhere [pair.ast.1, pair.ast.2] clauses.ast (some (.symbol .leftBrace)) true
  | @item place value => .guard place.rule value.rule value.ast
  | .single element => .expressionList nowhere [element.ast]
  | .several first second more => .expressionList nowhere (first.ast :: second.ast :: more.ast)
  | .target value => .guard .bitOr value.rule value.ast
  | .targets elements => elements.ast
  | .parameter stars token => ⟨nowhere, some (Name.ast token), none, none, stars.any⟩
  | .defaulted token value =>
    ⟨nowhere, some (Name.ast token), none,
      some ⟨nowhere, some (.guard .expression value.rule value.ast)⟩, false⟩
  | .argument stars value =>
    ⟨nowhere, none, stars.any, some (.guard .expression value.rule value.ast)⟩
  | .keyword label value =>
    ⟨nowhere, some (Name.ast label), false, some (.guard .expression value.rule value.ast)⟩
  | .generated element clauses =>
    ⟨nowhere, none, false, some (.comprehension nowhere [element.ast] clauses.ast none false)⟩
  | .unbounded => none
  | .bound value => some (.guard .expression value.rule value.ast)
  | .index value => ⟨nowhere, [.guard .expression value.rule value.ast]⟩
  | .slice lower upper => ⟨nowhere, lower.ast.toList ++ upper.ast.toList⟩
  | .stride lower upper step =>
    ⟨nowhere, lower.ast.toList ++ (upper.ast.toList ++ step.ast.toList)⟩
  | .entry key value =>
    (.guard .expression key.rule key.ast, .guard .expression value.rule value.ast)
  | .comprehension pattern iterable clauses | .each pattern iterable clauses =>
    .forClause nowhere (some pattern.ast) (some (.guard .disjunction iterable.rule iterable.ast)) ::
      clauses.ast
  | .noClauses => []
  | .filter condition clauses =>
    .ifClause nowhere (some (.guard .disjunction condition.rule condition.ast)) :: clauses.ast
  | .noItems => []
  | .items first more => first.ast :: more.ast
  | .noOthers => []
  | .others first more => first.ast :: more.ast

end Phrase

/-- Each entry after a comma. -/
def commas (entries : List (List Ast.Part)) : List Ast.Part :=
  entries.flatMap fun parts => .leaf (Token.mark .comma).sense :: parts

/-- The parts of a node that a phrase of each sort makes up. -/
def Part.parts : (part : Part) → part.Meaning → List Ast.Part
  | .expression, value | .item _, value | .row _, value | .targets, value => [.expr value]
  | .parameter, value => [.parameter value]
  | .argument, value => [.argument value]
  | .bound, value => value.toList.map .expr
  | .index, value => [.subscript value]
  | .entry, value => [.expr value.1, .leaf (Token.mark .colon).sense, .expr value.2]
  | .comprehension, values | .clauses, values => values.map .clause
  | .items _, [] => []
  | .items part, first :: more => part.parts first ++ commas (more.map part.parts)
  | .others part, values => commas (values.map part.parts)

section Rows

variable {α : Type} {pick : Ast.Part → Option α} (hleaf : ∀ leaf, pick (.leaf leaf) = none)
include hleaf

private theorem filterMap_commas (entries : List (List Ast.Part)) :
    (commas entries).filterMap pick = entries.flatMap (List.filterMap pick) := by
  induction entries with
  | nil => rfl
  | cons parts entries ih =>
    rw [commas, List.flatMap_cons, List.filterMap_append, List.filterMap_cons_none (hleaf _),
      ← commas, ih, List.flatMap_cons]

theorem Part.filterMap_others (part : Part) (values : List part.Meaning) :
    (Part.parts (.others part) values).filterMap pick =
      values.flatMap fun value => (part.parts value).filterMap pick := by
  rw [Part.parts, filterMap_commas hleaf, List.flatMap_map]

/-- What is picked from items is picked from each of them. -/
theorem Part.filterMap_items (part : Part) (values : List part.Meaning) :
    (Part.parts (.items part) values).filterMap pick =
      values.flatMap fun value => (part.parts value).filterMap pick := by
  cases values with
  | nil => rfl
  | cons first more =>
    have hmore := Part.filterMap_others hleaf part more
    rw [Part.parts, List.filterMap_append, List.flatMap_cons, ← hmore]
    rfl

end Rows

theorem Word.significant {kinds : List TokenKind} (word : Word kinds) :
    Ast.Part.significantLeaf? (.leaf word.sense) = some word.sense :=
  if_neg (Bool.eq_false_iff.mp word.plain.kind.1)

namespace Print

def senses (print : Print) : List Ast.Part := Ast.Part.senses print.trees

@[simp] theorem senses_empty : empty.senses = [] := rfl

@[simp] theorem senses_append (first second : Print) :
    (first ++ second).senses = first.senses ++ second.senses := Ast.Part.senses_append _ _

@[simp] theorem senses_node (kind : NodeKind) (print : Print) :
    (print.node kind).senses = [.assemble kind nowhere print.senses] := rfl

@[simp] theorem senses_leaf (token : Token) : (leaf token).senses = [.leaf token.sense] := rfl

@[simp] theorem senses_mark (symbol : Symbol) :
    (mark symbol).senses = [.leaf (Token.mark symbol).sense] := rfl

@[simp] theorem senses_word (keyword : Keyword) :
    (word keyword).senses = [.leaf (Token.word keyword).sense] := rfl

@[simp] theorem senses_leaves (tokens : List Token) :
    (leaves tokens).senses = tokens.map fun token => .leaf token.sense := by
  induction tokens with
  | nil => rfl
  | cons token tokens ih => exact congrArg (Ast.Part.leaf token.sense :: ·) ih

@[simp] theorem senses_between (bracket : Bracket) (print : Print) :
    (between bracket print).senses =
      .leaf (Token.mark bracket.opening).sense ::
        (print.senses ++ [.leaf (Token.mark bracket.closing).sense]) := by
  simp [between]

/-- Brackets are not picked. -/
theorem filterMap_between {α : Type} {pick : Ast.Part → Option α}
    (hleaf : ∀ leaf, pick (.leaf leaf) = none) (bracket : Bracket) (print : Print) :
    (between bracket print).senses.filterMap pick = print.senses.filterMap pick := by
  rw [senses_between, List.filterMap_cons_none (hleaf _), List.filterMap_append,
    List.filterMap_cons_none (hleaf _), List.filterMap_nil, List.append_nil]

theorem senses_name (label : Name) : (name label).senses = [.expr (.name (Name.ast label))] := by
  have hkind : label.token.kind = .name := by simpa using label.kind
  simp [name, Ast.Part.assemble, Ast.Part.significantLeaf?, Token.sense, hkind, TokenKind.isTrivia,
    Name.ast]

variable {print next : Print} {value : Ast.Expr} {trailer : Ast.Trailer}

theorem senses_guard (level rule : Rule) (h : print.senses = [.expr value]) :
    (print.guard level rule).senses = [.expr (.guard level rule value)] := by
  unfold Print.guard Ast.Expr.guard
  split
  · rw [senses_node, senses_between, h]
    rfl
  · exact h

private theorem senses_chained {rule : Rule} (h : print.senses = [.expr value])
    (hchain : rule = .chain → ∃ children, print.trees = [.node .chain children])
    (hnext : next.senses = [.trailer trailer]) :
    (print.chained rule next).senses = [.expr (.chained rule value trailer)] := by
  unfold Print.chained Ast.Expr.chained
  by_cases hrule : rule = .chain
  · obtain ⟨children, htrees⟩ := hchain hrule
    have hinside : print.inside.trees = children := by rw [inside, htrees]
    have hvalue : Ast.Part.assemble .chain nowhere (Ast.Part.senses children) = .expr value := by
      rw [senses, htrees] at h
      exact List.head_eq_of_cons_eq h
    rw [if_pos hrule, if_pos hrule, senses_node, senses_append, hnext, senses, hinside]
    obtain rfl := Ast.Part.expr.inj hvalue
    simp [Ast.Part.assemble, Ast.Part.expr?, Ast.Part.trailer?, Ast.Expr.more]
  · rw [if_neg hrule, if_neg hrule, senses_node, senses_append, hnext, senses_guard _ _ h]
    rfl

end Print

private theorem assemble_comprehension (front last : List Ast.Part)
    (hfront : front.filterMap Ast.Part.clause? = []) (hlast : last.filterMap Ast.Part.clause? = [])
    (clauses : List Ast.Clause) :
    Ast.Part.assemble .comprehension nowhere (front ++ (clauses.map .clause ++ last)) =
      .expr (.comprehension nowhere ((front ++ last).filterMap Ast.Part.expr?) clauses
        (Ast.Part.bracket? (front ++ last))
        (Ast.Part.hasToken (.symbol .colon) (front ++ last))) := by
  have htoken (kind : TokenKind) :
      Ast.Part.hasToken kind (front ++ (clauses.map .clause ++ last)) =
        Ast.Part.hasToken kind (front ++ last) := by
    rw [Ast.Part.hasToken_append, Ast.Part.hasToken_append, Ast.Part.hasToken_append,
      Ast.Part.hasToken_map clauses fun _ => rfl, Bool.false_or]
  have hexprs : (front ++ (clauses.map Ast.Part.clause ++ last)).filterMap Ast.Part.expr? =
      (front ++ last).filterMap Ast.Part.expr? := by
    rw [List.filterMap_append, List.filterMap_append, List.filterMap_append,
      Ast.Part.filterMap_map_none clauses fun _ => rfl, List.nil_append]
  have hclauses :
      (front ++ (clauses.map Ast.Part.clause ++ last)).filterMap Ast.Part.clause? = clauses := by
    rw [List.filterMap_append, List.filterMap_append, hfront, hlast,
      Ast.Part.filterMap_map_some clauses fun _ => rfl, List.nil_append, List.append_nil]
  simp only [Ast.Part.assemble, Ast.Part.bracket?, htoken, hexprs, hclauses]

private theorem filterMap_bound (bound : Option Ast.Expr) :
    (Part.parts .bound bound).filterMap Ast.Part.expr? = bound.toList := by
  cases bound <;> rfl

namespace Phrase

private theorem chain_trees (value : Phrase .expression) (h : value.rule = .chain) :
    ∃ children, value.print.trees = [.node .chain children] := by
  cases value with
  | member value token => exact ⟨_, rfl⟩
  | call function arguments => exact ⟨_, rfl⟩
  | subscript value first more => exact ⟨_, rfl⟩
  | binary operator left right => cases operator <;> cases h
  | _ => cases h

theorem senses_print {part : Part} (phrase : Phrase part) :
    phrase.print.senses = part.parts phrase.ast := by
  induction phrase with
  | name token => exact Print.senses_name token
  | literal token =>
    have htoken : Ast.Part.significantLeaf? (.leaf token.token.sense) = some token.sense :=
      token.significant
    rw [print, Print.senses_node, Print.senses_leaf, Ast.Part.assemble, List.filterMap_cons_some htoken]
    rfl
  | strings first more =>
    have hfirst : Ast.Part.significantLeaf? (.leaf first.token.sense) = some first.sense :=
      first.significant
    have hmore : (more.map fun word => Ast.Part.leaf word.token.sense).filterMap
        Ast.Part.significantLeaf? = more.map Word.sense := by
      rw [List.filterMap_map, ← List.filterMap_eq_map]
      exact congrArg (List.filterMap · more) (funext Word.significant)
    rw [print, Print.senses_node, Print.senses_append, Print.senses_leaf, Print.senses_leaves, List.map_map,
      Ast.Part.assemble, List.singleton_append, List.filterMap_cons_some hfirst]
    exact congrArg (fun words => [Ast.Part.expr (.literal nowhere (first.sense :: words))]) hmore
  | sign prefixed value ih =>
    rw [print, Print.senses_node, Print.senses_append, Print.senses_guard _ _ ih]
    rfl
  | negation value ih =>
    rw [print, Print.senses_node, Print.senses_append, Print.senses_guard _ _ ih]
    rfl
  | binary operator left right ihleft ihright =>
    rw [print, Print.senses_node, Print.senses_append, Print.senses_append,
      Print.senses_guard _ _ ihleft, Print.senses_guard _ _ ihright]
    cases operator <;> rfl
  | power base exponent ihbase ihexponent =>
    rw [print, Print.senses_node, Print.senses_append, Print.senses_append,
      Print.senses_guard _ _ ihbase, Print.senses_guard _ _ ihexponent]
    rfl
  | conditional value condition other ihvalue ihcondition ihother =>
    rw [print, Print.senses_node]
    simp only [Print.senses_append, Print.senses_guard _ _ ihvalue,
      Print.senses_guard _ _ ihcondition, Print.senses_guard _ _ ihother]
    rfl
  | lambda parameters body ihparameters ihbody =>
    have hparameters : parameters.print.senses.filterMap Ast.Part.parameter? = parameters.ast := by
      rw [ihparameters, Part.filterMap_items (fun _ => rfl)]
      exact List.flatMap_singleton' _
    rw [print, Print.senses_node]
    simp only [Print.senses_append, Print.senses_node, Print.senses_guard _ _ ihbody,
      Ast.Part.assemble, hparameters]
    rfl
  | member value token ih =>
    refine Print.senses_chained ih value.chain_trees ?_
    rw [Print.senses_node, Print.senses_append, Print.senses_name]
    rfl
  | call function arguments ihfunction iharguments =>
    refine Print.senses_chained ihfunction function.chain_trees ?_
    have harguments : arguments.print.senses.filterMap Ast.Part.argument? = arguments.ast := by
      rw [iharguments, Part.filterMap_items (fun _ => rfl)]
      exact List.flatMap_singleton' _
    rw [Print.senses_node, Ast.Part.assemble, Print.filterMap_between (fun _ => rfl), harguments]
  | subscript value first more ihvalue ihfirst ihmore =>
    refine Print.senses_chained ihvalue value.chain_trees ?_
    have hmore : more.print.senses.filterMap Ast.Part.subscript? = more.ast := by
      rw [ihmore, Part.filterMap_others (fun _ => rfl)]
      exact List.flatMap_singleton' _
    rw [Print.senses_node, Ast.Part.assemble, Print.filterMap_between (fun _ => rfl),
      Print.senses_append, ihfirst, List.filterMap_append, hmore]
    rfl
  | unit => rfl
  | tuple elements ih => exact ih
  | list elements ih =>
    have helements : elements.print.senses.filterMap Ast.Part.expr? = elements.ast := by
      rw [ih, Part.filterMap_items (fun _ => rfl)]
      exact List.flatMap_singleton' _
    rw [print, Print.senses_node, Ast.Part.assemble, Print.filterMap_between (fun _ => rfl),
      helements]
    rfl
  | set first more ihfirst ihmore =>
    have hmore : more.print.senses.filterMap Ast.Part.expr? = more.ast := by
      rw [ihmore, Part.filterMap_others (fun _ => rfl)]
      exact List.flatMap_singleton' _
    rw [print, Print.senses_node, Ast.Part.assemble, Print.filterMap_between (fun _ => rfl),
      Print.senses_append, ihfirst, List.filterMap_append, hmore]
    rfl
  | dictionary entries ih =>
    have hentries : entries.print.senses.filterMap Ast.Part.expr? =
        entries.ast.flatMap fun entry => [entry.1, entry.2] := by
      rw [ih, Part.filterMap_items (fun _ => rfl)]
      rfl
    rw [print, Print.senses_node, Ast.Part.assemble, Print.filterMap_between (fun _ => rfl),
      hentries]
    rfl
  | comprehended bracket element clauses ihelement ihclauses =>
    rw [print, Print.senses_node, Print.senses_between, Print.senses_append, ihelement, ihclauses]
    cases bracket <;>
      exact congrArg (fun part => [part])
        (assemble_comprehension [_, _] [_] rfl rfl clauses.ast)
  | dictionaryComprehension pair clauses ihpair ihclauses =>
    rw [print, Print.senses_node, Print.senses_between, Print.senses_append, ihpair, ihclauses]
    exact congrArg (fun part => [part])
      (assemble_comprehension [_, _, _, _] [_] rfl rfl clauses.ast)
  | item value ih => exact Print.senses_guard _ _ ih
  | single element ih =>
    rw [print, Print.senses_node, Print.senses_append, ih]
    rfl
  | several first second more ihfirst ihsecond ihmore =>
    have hmore : more.print.senses.filterMap Ast.Part.expr? = more.ast := by
      rw [ihmore, Part.filterMap_others (fun _ => rfl)]
      exact List.flatMap_singleton' _
    rw [print, Print.senses_node]
    simp only [Print.senses_append, ihfirst, ihsecond, Ast.Part.assemble, List.filterMap_append,
      hmore]
    rfl
  | target value ih => exact Print.senses_guard _ _ ih
  | targets elements ih => exact ih
  | parameter stars token =>
    rw [print, Print.senses_node, Print.senses_append, Print.senses_name]
    cases stars <;> rfl
  | defaulted token value ih =>
    rw [print, Print.senses_node, Print.senses_append, Print.senses_name, Print.senses_node,
      Print.senses_append, Print.senses_guard _ _ ih]
    rfl
  | argument stars value ih =>
    rw [print, Print.senses_node, Print.senses_append, Print.senses_guard _ _ ih]
    cases stars <;> rfl
  | keyword label value ih =>
    rw [print, Print.senses_node, Print.senses_append, Print.senses_name, Print.senses_append,
      Print.senses_guard _ _ ih]
    rfl
  | generated element clauses ihelement ihclauses =>
    have hcomprehension := assemble_comprehension [.expr element.ast] [] rfl rfl clauses.ast
    rw [List.append_nil] at hcomprehension
    rw [print, Print.senses_node, Print.senses_node, Print.senses_append, ihelement, ihclauses]
    exact congrArg (fun part => [Ast.Part.assemble .argument nowhere [part]]) hcomprehension
  | unbounded => rfl
  | bound value ih => exact Print.senses_guard _ _ ih
  | index value ih =>
    rw [print, Print.senses_node, Print.senses_guard _ _ ih]
    rfl
  | slice lower upper ihlower ihupper =>
    rw [print, Print.senses_node]
    simp only [Print.senses_append, ihlower, ihupper, Ast.Part.assemble, List.filterMap_append,
      filterMap_bound]
    rfl
  | stride lower upper step ihlower ihupper ihstep =>
    rw [print, Print.senses_node]
    simp only [Print.senses_append, ihlower, ihupper, ihstep, Ast.Part.assemble,
      List.filterMap_append, filterMap_bound]
    rfl
  | entry key value ihkey ihvalue =>
    rw [print, Print.senses_append, Print.senses_append, Print.senses_guard _ _ ihkey,
      Print.senses_guard _ _ ihvalue]
    rfl
  | comprehension pattern iterable clauses ihpattern ihiterable ihclauses
  | each pattern iterable clauses ihpattern ihiterable ihclauses =>
    rw [print, Print.senses_append, Print.senses_node, ihclauses]
    simp only [Print.senses_append, ihpattern, Print.senses_guard _ _ ihiterable]
    rfl
  | noClauses => rfl
  | filter condition clauses ihcondition ihclauses =>
    rw [print, Print.senses_append, Print.senses_node, Print.senses_append,
      Print.senses_guard _ _ ihcondition, ihclauses]
    rfl
  | noItems => rfl
  | items first more ihfirst ihmore =>
    rw [print, Print.senses_append, ihfirst, ihmore]
    rfl
  | noOthers => rfl
  | others first more ihfirst ihmore =>
    rw [print, Print.senses_append, Print.senses_append, ihfirst, ihmore]
    rfl

end Phrase

end Syntax

end QuantumScript
