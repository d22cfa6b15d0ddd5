import Mathlib
import QuantumScript.Analysis
import QuantumScript.Proofs.Locating.Heads
import QuantumScript.Proofs.Locating.Offsets
import QuantumScript.Proofs.Locating.Rows
import QuantumScript.Proofs.Mentions.Coverage
import QuantumScript.Proofs.Mentions.Scripts
import QuantumScript.Proofs.Ordering.Outlines
/-!
# Identifiers and their roles

If a source has no error then every name that is written in it has one role. So the names that are used are
looked up once each, and a name is reported where it is used and no open scope knows it, once and nowhere
else.
-/

namespace QuantumScript

open Text (byteLength LineIndex)

namespace Syntax

open Ast (Leaf Part)

/-- The tokens that stand next to each other from an offset on. -/
def placed (offset : Nat) : List (TokenKind × List Char) → List Leaf
  | [] => []
  | entry :: rest => Part.leafAt offset entry :: placed (offset + byteLength entry.2) rest

theorem placed_append (offset : Nat) (leaves others : List (TokenKind × List Char)) :
    placed offset (leaves ++ others) =
      placed offset leaves ++ placed (offset + byteLength (leaves.flatMap Prod.snd)) others := by
  induction leaves generalizing offset with
  | nil => rfl
  | cons entry rest ih =>
    rw [List.cons_append, placed, ih, placed, List.flatMap_cons, Text.byteLength_append, ← Nat.add_assoc]
    rfl

namespace Tree

mutual

/-- The identifiers of the names in a tree that starts at an offset. -/
def names (offset : Nat) : Tree → List Leaf
  | .token _ _ => []
  | .node kind children =>
    if kind = .name then (placed offset (leavesAll children)).filter fun leaf => leaf.kind = .name
    else namesAll offset children

def namesAll (offset : Nat) : List Tree → List Leaf
  | [] => []
  | tree :: trees => names offset tree ++ namesAll (offset + tree.byteLength) trees

end

mutual

private theorem names_sublist (offset : Nat) (tree : Tree) :
    (tree.names offset).Sublist ((placed offset tree.leaves).filter fun leaf => leaf.kind = .name) := by
  match tree with
  | .token _ _ => exact List.nil_sublist _
  | .node kind children =>
    rw [names, leaves]
    split
    · exact List.Sublist.refl _
    · exact namesAll_sublist offset children

private theorem namesAll_sublist (offset : Nat) (trees : List Tree) :
    (namesAll offset trees).Sublist
      ((placed offset (leavesAll trees)).filter fun leaf => leaf.kind = .name) := by
  match trees with
  | [] => exact List.Sublist.refl _
  | tree :: trees =>
    rw [namesAll, leavesAll, placed_append, List.filter_append, byteLength_eq, Tree.text]
    exact (names_sublist offset tree).append (namesAll_sublist _ trees)

end

private theorem ofTrees_tokens (offset : Nat) {trees : List Tree} (h : ∀ tree ∈ trees, tree.nodeKind? = none) :
    Part.ofTrees offset trees = (placed offset (leavesAll trees)).map Part.leaf := by
  induction trees generalizing offset with
  | nil => rw [Part.ofTrees]; rfl
  | cons tree trees ih =>
    obtain ⟨htree, hrest⟩ := List.forall_mem_cons.mp h
    cases tree with
    | token kind text =>
      rw [Part.ofTrees_cons, ih _ hrest]
      rfl
    | node kind children => cases htree

private theorem count_identifiers (offset : Nat) {trees : List Tree}
    (h : ∀ tree ∈ trees, tree.nodeKind? = none) :
    (placed offset (leavesAll trees)).countP (fun leaf => leaf.kind = .name) =
      (pieces trees).countP (· = .word .name) := by
  induction trees generalizing offset with
  | nil => rfl
  | cons tree trees ih =>
    obtain ⟨htree, hrest⟩ := List.forall_mem_cons.mp h
    cases tree with
    | token kind text =>
      rw [leavesAll, leaves, List.singleton_append, placed, List.countP_cons, ih _ hrest, pieces, pieces]
      by_cases hname : kind = .name
      · subst hname
        rw [List.filterMap_cons_some (show piece? (.token .name text) = some (.word .name) from rfl),
          List.countP_cons]
        rfl
      · have hleaf : ¬decide ((Part.leafAt offset (kind, text)).kind = .name) = true :=
          fun h => hname (of_decide_eq_true h)
        rw [if_neg hleaf, Nat.add_zero]
        cases hpiece : piece? (.token kind text) with
        | none => rw [List.filterMap_cons_none hpiece]
        | some piece =>
          have hother : ¬piece = .word .name := by
            rintro rfl
            exact hname (Option.some.inj (tokenKind?_of_word hpiece))
          rw [List.filterMap_cons_some hpiece, List.countP_cons_of_neg (by simpa using hother)]
    | node kind children => cases htree

private theorem exists_identifier {children : List Tree} (offset : Nat)
    (hfits : (Shape.ofKind .name).Fits (pieces children)) :
    ∃ own, Part.ofTrees offset children = (placed offset (leavesAll children)).map Part.leaf ∧
      (placed offset (leavesAll children)).filter (fun leaf => leaf.kind = .name) = [own] := by
  obtain ⟨piece, hmem, hpieces⟩ := hfits
  obtain rfl := List.mem_singleton.mp hmem
  have htokens : ∀ tree ∈ children, tree.nodeKind? = none := by
    intro tree htree
    cases tree with
    | token kind text => rfl
    | node kind own =>
      have hword : kind.piece = .word .name :=
        List.mem_singleton.mp (hpieces ▸ mem_pieces.mpr ⟨_, htree, rfl⟩)
      have hcounts : piece? (.node kind own) = some (.word .name) := congrArg some hword
      cases tokenKind?_of_word hcounts
  have hcount := count_identifiers offset htokens
  rw [hpieces, List.countP_eq_length_filter] at hcount
  obtain ⟨own, hown⟩ := List.length_eq_one_iff.mp (hcount.trans rfl)
  exact ⟨own, ofTrees_tokens offset htokens, hown⟩

end Tree

end Syntax

namespace Ast.Part

open Syntax

private theorem times_name_node (leaf : Leaf) (offset : Nat) {children : List Tree}
    (hfits : (Shape.ofKind .name).Fits (Tree.pieces children)) :
    (ofTree offset (.node .name children)).times leaf =
      (Tree.names offset (.node .name children)).count leaf := by
  obtain ⟨own, hparts, hown⟩ := Tree.exists_identifier offset hfits
  have hsees (part : Leaf) : (significantLeaf? (.leaf part)).any (fun leaf => leaf.kind = .name) =
      decide (part.kind = .name) := by
    rw [significantLeaf?]
    by_cases hname : part.kind = .name
    · simp [hname, TokenKind.isTrivia]
    · split <;> simp [hname]
  have hident : ((ofTrees offset children).filterMap significantLeaf?).find? (fun leaf => leaf.kind = .name) =
      some own := by
    have hfind : (placed offset (Tree.leavesAll children)).find? (fun leaf => leaf.kind = .name) =
        some own := by
      rw [← List.head?_filter, hown]
      rfl
    have hkind : own.kind = .name := by simpa using List.find?_some hfind
    rw [List.find?_filterMap, hparts, List.find?_map]
    simp only [Function.comp_def, hsees]
    rw [hfind, Option.map_some, Option.bind_some, significantLeaf?, hkind]
    rfl
  rw [Tree.names, if_pos rfl, hown, ofTree, times, assemble, mentions, Expr.mentions, Name.mentions, hident]
  simp [List.count_singleton]

private theorem times_eq_count (leaf : Leaf) (offset : Nat) {tree : Tree} (h : tree.Formed) :
    (ofTree offset tree).times leaf = (tree.names offset).count leaf := by
  induction h generalizing offset with
  | token kind text => rfl
  | @node kind children hfits hchildren ih =>
    by_cases hname : kind = .name
    · subst hname
      exact times_name_node leaf offset hfits
    · have hnames : ∀ name, .expr (.name name) ∈ ofTrees offset children → name.ident.isSome = true := by
        intro name hmem
        obtain ⟨start, tree, htree, hread⟩ := exists_of_mem_ofTrees hmem
        cases tree with
        | token own text => cases hread
        | node own grandchildren =>
          obtain _ | ⟨hown, -⟩ := hchildren _ htree
          have hpromised := promised_of_fits start hown
          rw [hread] at hpromised
          exact hpromised
      rw [times_ofTree leaf offset hname hfits hnames, Tree.names, if_neg hname]
      clear hfits hchildren hnames
      induction children generalizing offset with
      | nil => rw [ofTrees]; rfl
      | cons tree trees ihtrees =>
        obtain ⟨htree, htrees⟩ := List.forall_mem_cons.mp ih
        rw [ofTrees_cons, List.map_cons, List.sum_cons, htree, Tree.namesAll, List.count_append,
          ihtrees htrees]

end Ast.Part

namespace Syntax

open Ast (Leaf Part)

private theorem row_placed {text : List Char} {start : Nat} {leaves : List (TokenKind × List Char)}
    (h : Spelled text start leaves) (hinked : Part.Inked leaves) :
    Text.Row text (fun leaf span => leaf.span = span) start (start + byteLength (leaves.flatMap Prod.snd))
      ((placed start leaves).filter fun leaf => leaf.kind = .name) := by
  induction leaves generalizing start with
  | nil => exact .nil (Nat.le_add_right _ _)
  | cons entry rest ih =>
    obtain ⟨hfirst, hrest⟩ := Spelled.append (show Spelled text start ([entry] ++ rest) from h)
    obtain ⟨hown, hothers⟩ := List.forall_mem_cons.mp hinked
    have hrow := ih hrest hothers
    obtain ⟨hstart, hstop⟩ := hfirst.edges
    rw [List.flatMap_singleton] at hrow hstop
    rw [placed, List.filter_cons, List.flatMap_cons, Text.byteLength_append, ← Nat.add_assoc]
    split
    · rename_i hname
      have hkind : entry.1 = .name := of_decide_eq_true hname
      have htext : 0 < byteLength entry.2 := by
        refine Nat.pos_of_ne_zero fun hzero => hown (by rw [hkind]; rfl) ?_
        exact List.length_eq_zero_iff.mp (Nat.le_zero.mp (hzero ▸ Text.length_le_byteLength entry.2))
      exact .cons (Nat.le_refl _) ⟨hstart, hstop, Nat.lt_add_of_pos_right htext⟩ rfl hrow
    · exact hrow.widen (Nat.le_add_right _ _) (Nat.le_refl _)

private theorem pairwise_names (text : List Char) : ((parse text).tree.names 0).Pairwise fun leaf next =>
    (LineIndex.ofText text).position leaf.span ≠ (LineIndex.ofText text).position next.span := by
  have hrow := (row_placed (spelled_parse text) (Part.inked_parse text)).sublist (Tree.names_sublist 0 _)
  refine hrow.pairwise.imp ?_
  rintro leaf next ⟨_, _, rfl, rfl, hcuts, hnext, hle⟩ hsame
  have hprecedes := LineIndex.precedes_position hcuts.start.boundary hnext.start.boundary
    (Nat.lt_of_lt_of_le hcuts.nonempty hle)
  rw [hsame] at hprecedes
  rcases hprecedes with hline | ⟨-, hstart⟩
  · exact Nat.lt_irrefl _ hline
  · exact Nat.lt_irrefl _ hstart

private theorem nodup_names (text : List Char) : ((parse text).tree.names 0).Nodup := by
  refine (pairwise_names text).imp ?_
  rintro leaf _ hother rfl
  exact hother rfl

private theorem eq_of_position {text : List Char} {leaf other : Leaf} (hleaf : leaf ∈ (parse text).tree.names 0)
    (hother : other ∈ (parse text).tree.names 0)
    (h : (LineIndex.ofText text).position leaf.span = (LineIndex.ofText text).position other.span) :
    leaf = other := by
  have hsymm : Std.Symm fun leaf next : Leaf =>
      (LineIndex.ofText text).position leaf.span ≠ (LineIndex.ofText text).position next.span :=
    ⟨fun _ _ => Ne.symm⟩
  by_contra hne
  exact (pairwise_names text).forall hleaf hother hne h

end Syntax

theorem Ast.Script.mentions_perm {text : List Char} (h : (Syntax.parse text).errors = []) :
    ((Script.ofTree (Syntax.parse text).tree).mentions.map Mention.leaf).Perm
      ((Syntax.parse text).tree.names 0) := by
  refine List.perm_iff_count.mpr fun leaf => ?_
  rw [← Part.times_eq_count leaf 0 (Syntax.parse_formed h), List.count, List.countP_map]
  rfl

/-- No open scope has a version of the name, on whatever line. -/
def SymbolTable.Unbound (table : SymbolTable) (name : String) : Prop :=
  ∀ id ∈ table.live, ∀ scope, table.scopes[id]? = some scope → scope.versions name = []

theorem SymbolTable.resolve?_eq_none_iff {table : SymbolTable} {name : String} :
    table.resolve? name = none ↔ table.Unbound name := by
  rw [resolve?_eq_none, Outline.Holds, outline, Unbound]
  simp only [List.mem_map, exists_exists_and_eq_and, not_exists, not_and]
  refine forall_congr' fun id => imp_congr_right fun _ => ?_
  cases hscope : table.scopes[id]? with
  | none => simp [namesAt, hscope]
  | some scope =>
    simp only [namesAt, hscope, Option.elim_some, Scope.names, Set.mem_ofPred_eq, not_exists,
      Option.some.injEq, forall_eq']
    exact List.eq_nil_iff_forall_not_mem.symm

namespace Analysis

open Ast (Leaf Mention)

variable (analysis : Analysis) (leaf : Leaf)

/-- The lookups of the name that is written here. -/
def usesOf : List Use :=
  analysis.uses.filter fun use => use.site = analysis.source.index.leafSite leaf

/-- What is reported here as not defined. -/
def undefinedAt : List Diagnostic :=
  analysis.diagnostics.filter fun diagnostic =>
    diagnostic.isUndefined && diagnostic.position = analysis.source.index.position leaf.span

/-- The name is looked up once. It is reported once if no scope that is open then knows it, else never. -/
def LooksUp : Prop :=
  ∃ use, analysis.usesOf leaf = [use] ∧
    (use.table.Unbound leaf.text → analysis.undefinedAt leaf =
      [.ofFinding (.undefinedSymbol leaf.text) (analysis.source.index.leafSite leaf)]) ∧
    (¬use.table.Unbound leaf.text → analysis.undefinedAt leaf = [])

/-- The name is neither looked up nor reported. -/
def PassesOver : Prop := analysis.usesOf leaf = [] ∧ analysis.undefinedAt leaf = []

end Analysis

section Sources

open Ast (Leaf Mention Script)

theorem Analysis.lookups (source : Source) (initial : SymbolTable) :
    (source.index.sitesOf .used source.script.mentions).Sublist
        ((Analysis.ofSource source initial).uses.map Use.site) ∧
      ((Analysis.ofSource source initial).uses.map Use.site).Sublist
        (source.index.lookable source.script.mentions) :=
  Inference.State.lookups_ofScript source.index source.script _

private theorem Analysis.filter_isUndefined {source : Source} (initial : SymbolTable)
    (h : source.parsed.errors = []) :
    (Analysis.ofSource source initial).diagnostics.filter Diagnostic.isUndefined =
      (Analysis.ofSource source initial).uses.filterMap Use.report? := by
  have hsyntax : source.diagnostics = [] := by rw [Source.diagnostics, h, List.map_nil]
  have hwarnings (index : LineIndex) (script : Script) (table : SymbolTable) :
      (Hoisting.warnings index script table).filter Diagnostic.isUndefined = [] := by
    refine List.filter_eq_nil_iff.mpr fun diagnostic hmem => ?_
    obtain ⟨hint, -, hproblem⟩ := List.mem_filterMap.mp hmem
    unfold Hoisting.hintProblem? at hproblem
    split at hproblem <;> cases hproblem
    exact Bool.false_ne_true
  rw [Analysis.ofSource, hsyntax, List.nil_append, List.filter_append, hwarnings, List.nil_append]
  exact (Inference.State.reports_ofScript _ _ _).1

private theorem Analysis.exists_mention {source : Source} {initial : SymbolTable} {use : Use}
    (huse : use ∈ (Analysis.ofSource source initial).uses) :
    ∃ mention ∈ source.script.mentions, mention.role.silent = false ∧
      use.site = source.index.leafSite mention.leaf := by
  obtain ⟨leaf, hleaf, hsite⟩ :=
    List.mem_map.mp ((Analysis.lookups source initial).2.mem (List.mem_map_of_mem huse))
  obtain ⟨mention, hmention, rfl⟩ := List.mem_map.mp hleaf
  obtain ⟨hmem, hrole⟩ := List.mem_filter.mp hmention
  exact ⟨mention, hmem, by simpa using hrole, hsite.symm⟩

variable {path : Option String} {text : List Char} {initial : SymbolTable}
variable (h : (Syntax.parse text).errors = [])
include h

theorem Ast.Script.mem_names {mention : Mention}
    (hmem : mention ∈ (Source.ofText path text).script.mentions) : mention.leaf ∈ (Syntax.parse text).tree.names 0 :=
  (Script.mentions_perm h).mem_iff.mp (List.mem_map_of_mem hmem)

theorem Ast.Script.eq_of_leaf {mention other : Mention}
    (hmem : mention ∈ (Source.ofText path text).script.mentions)
    (hother : other ∈ (Source.ofText path text).script.mentions) (hleaf : mention.leaf = other.leaf) :
    mention = other :=
  List.inj_on_of_nodup_map ((Script.mentions_perm h).nodup_iff.mpr (Syntax.nodup_names text)) hmem hother
    hleaf

private theorem nodup_lookable :
    ((Source.ofText path text).index.lookable (Source.ofText path text).script.mentions).Nodup := by
  refine List.Nodup.map_on ?_ ?_
  · intro leaf hleaf other hother hsite
    obtain ⟨mention, hmention, rfl⟩ := List.mem_map.mp hleaf
    obtain ⟨next, hnext, rfl⟩ := List.mem_map.mp hother
    exact Syntax.eq_of_position (Script.mem_names h (List.mem_of_mem_filter hmention))
      (Script.mem_names h (List.mem_of_mem_filter hnext)) (congrArg Site.position hsite)
  · have hnodup := (Script.mentions_perm h).nodup_iff.mpr (Syntax.nodup_names text)
    exact hnodup.sublist (List.filter_sublist.map Mention.leaf)

private theorem Analysis.nodup_uses :
    ((Analysis.ofSource (.ofText path text) initial).uses.map Use.site).Nodup :=
  (nodup_lookable h).sublist (Analysis.lookups _ initial).2

private theorem Analysis.undefinedAt_eq {leaf : Leaf} (hleaf : leaf ∈ (Syntax.parse text).tree.names 0) :
    let analysis := Analysis.ofSource (.ofText path text) initial
    analysis.undefinedAt leaf = (analysis.usesOf leaf).filterMap Use.report? := by
  intro analysis
  have hfilter : analysis.undefinedAt leaf = (analysis.diagnostics.filter Diagnostic.isUndefined).filter
      fun diagnostic => diagnostic.position = analysis.source.index.position leaf.span := by
    rw [List.filter_filter]
    exact List.filter_congr fun diagnostic _ => Bool.and_comm _ _
  rw [hfilter, Analysis.filter_isUndefined initial h, List.filter_filterMap, usesOf,
    List.filterMap_filter]
  refine List.filterMap_congr fun use huse => ?_
  obtain ⟨mention, hmention, -, hsite⟩ := Analysis.exists_mention huse
  have hposition : use.site.position = analysis.source.index.position leaf.span ↔
      use.site = analysis.source.index.leafSite leaf := by
    refine ⟨fun hsame => ?_, congrArg Site.position⟩
    rw [hsite] at hsame ⊢
    rw [Syntax.eq_of_position (Script.mem_names h hmention) hleaf hsame]
    rfl
  unfold Use.report?
  cases use.record with
  | some record => simp
  | none => simp [Option.filter_some, Diagnostic.ofFinding, hposition]

private theorem Analysis.passesOver_of_usesOf {leaf : Leaf} (hleaf : leaf ∈ (Syntax.parse text).tree.names 0)
    (huses : (Analysis.ofSource (.ofText path text) initial).usesOf leaf = []) :
    (Analysis.ofSource (.ofText path text) initial).PassesOver leaf := by
  refine ⟨huses, ?_⟩
  rw [Analysis.undefinedAt_eq h hleaf, huses]
  rfl

private theorem Analysis.looksUp_of_usesOf {leaf : Leaf} {use : Use}
    (hleaf : leaf ∈ (Syntax.parse text).tree.names 0)
    (huses : (Analysis.ofSource (.ofText path text) initial).usesOf leaf = [use]) :
    (Analysis.ofSource (.ofText path text) initial).LooksUp leaf := by
  have hmem : use ∈ (Analysis.ofSource (.ofText path text) initial).usesOf leaf :=
    huses ▸ List.mem_singleton_self use
  have hsite := of_decide_eq_true (List.mem_filter.mp hmem).2
  have hrecord : use.record = none ↔ use.table.Unbound leaf.text := by
    rw [Use.record, hsite]
    exact SymbolTable.resolve?_eq_none_iff
  refine ⟨use, huses, fun hunbound => ?_, fun hbound => ?_⟩
  · have hreport : use.report? =
        some (.ofFinding (.undefinedSymbol leaf.text) ((Source.ofText path text).index.leafSite leaf)) := by
      rw [Use.report?, hrecord.mpr hunbound, hsite]
      rfl
    rw [Analysis.undefinedAt_eq h hleaf, huses, List.filterMap_cons_some hreport]
    rfl
  · obtain ⟨record, hsome⟩ := Option.ne_none_iff_exists'.mp fun hnone => hbound (hrecord.mp hnone)
    have hreport : use.report? = none := by rw [Use.report?, hsome]
    rw [Analysis.undefinedAt_eq h hleaf, huses, List.filterMap_cons_none hreport]
    rfl

private theorem Analysis.looksUp_or_passesOver {leaf : Leaf} (hleaf : leaf ∈ (Syntax.parse text).tree.names 0) :
    (Analysis.ofSource (.ofText path text) initial).LooksUp leaf ∨
      (Analysis.ofSource (.ofText path text) initial).PassesOver leaf := by
  have hone : ((Analysis.ofSource (.ofText path text) initial).usesOf leaf).length ≤ 1 := by
    have hnodup : ((Analysis.ofSource (.ofText path text) initial).uses.map Use.site).Nodup :=
      Analysis.nodup_uses h
    have hcount := List.nodup_iff_count_le_one.mp hnodup ((Source.ofText path text).index.leafSite leaf)
    rw [List.count, List.countP_map, List.countP_eq_length_filter] at hcount
    exact hcount
  match huses : (Analysis.ofSource (.ofText path text) initial).usesOf leaf, hone with
  | [], _ => exact .inr (Analysis.passesOver_of_usesOf h hleaf huses)
  | [use], _ => exact .inl (Analysis.looksUp_of_usesOf h hleaf huses)

private theorem Analysis.looksUp_of_used {mention : Mention}
    (hmem : mention ∈ (Source.ofText path text).script.mentions) (hrole : mention.role = .used) :
    (Analysis.ofSource (.ofText path text) initial).LooksUp mention.leaf := by
  refine (Analysis.looksUp_or_passesOver h (Script.mem_names h hmem)).resolve_right fun hpasses => ?_
  have hsites := (Analysis.lookups (.ofText path text) initial).1
  have hused : mention.leaf ∈ Mention.ofRole .used (Source.ofText path text).script.mentions :=
    List.mem_map_of_mem (List.mem_filter.mpr ⟨hmem, decide_eq_true hrole⟩)
  obtain ⟨use, huse, hsite⟩ := List.mem_map.mp (hsites.mem (List.mem_map_of_mem hused))
  have hnone := List.filter_eq_nil_iff.mp hpasses.1 use huse
  exact hnone (decide_eq_true hsite)

private theorem Analysis.passesOver_of_silent {mention : Mention}
    (hmem : mention ∈ (Source.ofText path text).script.mentions) (hrole : mention.role.silent = true) :
    (Analysis.ofSource (.ofText path text) initial).PassesOver mention.leaf := by
  refine Analysis.passesOver_of_usesOf h (Script.mem_names h hmem) (List.filter_eq_nil_iff.mpr ?_)
  intro use huse hsite
  obtain ⟨other, hother, hsilent, hown⟩ := Analysis.exists_mention huse
  have hsame : (Source.ofText path text).index.leafSite other.leaf =
      (Source.ofText path text).index.leafSite mention.leaf := hown.symm.trans (of_decide_eq_true hsite)
  have hleaf := Syntax.eq_of_position (Script.mem_names h hother) (Script.mem_names h hmem)
    (congrArg Site.position hsame)
  rw [Script.eq_of_leaf h hother hmem hleaf, hrole] at hsilent
  cases hsilent

end Sources

end QuantumScript
