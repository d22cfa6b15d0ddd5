import Mathlib
import QuantumScript.Proofs.Binding.Targets
import QuantumScript.Proofs.Walking.Operations
import QuantumScript.Proofs.Walking.Surroundings
/-!
# Parameters

The parameters of a function are bound in its scope on the line of its header, and a statement reads what
is bound above its line. So a parameter shadows outer names in a body that stands below the header. In a
body on the line of the header an outer name that is bound above it comes first.
-/

namespace QuantumScript

namespace SymbolTable

/-- The scope knows the name, and those passed before do not: the name is found there. -/
theorem findIn_cons_of_some {scopes : List Scope} {find : Scope → Option Binding} {id : Nat}
    {binding : Binding} (h : scopes[id]?.bind find = some binding) (outer : List Nat) :
    findIn scopes find (id :: outer) = some ⟨binding, id, outer.length⟩ := by
  rw [findIn, h]

private theorem findIn_cons_of_none {scopes : List Scope} {find : Scope → Option Binding} {id : Nat}
    (h : scopes[id]?.bind find = none) (outer : List Nat) :
    findIn scopes find (id :: outer) = findIn scopes find outer := by
  rw [findIn, h]

end SymbolTable

namespace Scope

private theorem latestAt_of_line {scope : Scope} {name : String} {line : Nat}
    (h : ∀ version ∈ scope.versions name, version.line = line) (position : Nat) :
    scope.latestAt name position = if line ≤ position then (scope.versions name).getLast? else none := by
  rw [latestAt]
  split
  · rename_i hle
    have hall : (scope.versions name).filter (fun binding => decide (binding.line ≤ position)) =
        scope.versions name := List.filter_eq_self.mpr fun version hmem => by simpa [h version hmem]
    rw [hall]
  · rename_i hless
    have hnone : (scope.versions name).filter (fun binding => decide (binding.line ≤ position)) = [] :=
      List.filter_eq_nil_iff.mpr fun version hmem => by simpa [h version hmem] using hless
    rw [hnone]
    rfl

private theorem mem_foldl_insert {scope : Scope} {bindings : List Binding} {binding : Binding}
    (h : binding ∈ (bindings.foldl Scope.insert scope).bindings) :
    binding ∈ scope.bindings ∨ binding ∈ bindings := by
  induction bindings generalizing scope with
  | nil => exact .inl h
  | cons first rest ih =>
    rcases ih h with h | h
    · rcases scope.insert_cases first with ⟨_, heq⟩ | ⟨_, heq⟩
      · rw [heq] at h
        exact .inl h
      · rw [heq] at h
        rcases mem_insertSorted.mp h with rfl | h
        · exact .inr List.mem_cons_self
        · exact .inl h
    · exact .inr (List.mem_cons_of_mem _ h)

end Scope

private theorem SymbolTable.le_position_foldl_define (bindings : List Binding) (table : SymbolTable) :
    table.position ≤ (bindings.foldl define table).position := by
  induction bindings generalizing table with
  | nil => exact Nat.le_refl _
  | cons binding rest ih => exact Nat.le_trans (Nat.le_max_left _ _) (ih (table.define binding))

namespace Inference

open SymbolTable
open Text (LineIndex)

private theorem run_parameters (line : Nat) (owner : Option ClassType) (items : List Ast.Parameter)
    (state : State) :
    ∃ bindings : List Binding, bindings.map Binding.name = items.filterMap Ast.Parameter.text ∧
      (∀ binding ∈ bindings, binding.line = line) ∧
      ((parameters line owner items).run state).2 =
        { state with table := bindings.foldl SymbolTable.define state.table } := by
  induction items generalizing owner state with
  | nil => exact ⟨[], rfl, nofun, rfl⟩
  | cons parameter rest ih =>
    have hbind (name : String) (type : SymbolType) (htext : parameter.text = some name) :
        ∃ bindings : List Binding,
          bindings.map Binding.name = (parameter :: rest).filterMap Ast.Parameter.text ∧
          (∀ binding ∈ bindings, binding.line = line) ∧
          ((parameters line none rest).run
              { state with table := state.table.define ⟨name, type, line⟩ }).2 =
            { state with table := bindings.foldl SymbolTable.define state.table } := by
      obtain ⟨bindings, hnames, hlines, hrun⟩ :=
        ih none { state with table := state.table.define ⟨name, type, line⟩ }
      refine ⟨⟨name, type, line⟩ :: bindings, ?_, List.forall_mem_cons.mpr ⟨rfl, hlines⟩, hrun⟩
      rw [List.filterMap_cons_some htext, List.map_cons, hnames]
    unfold parameters
    split
    · rename_i name htext
      split
      · split
        · exact hbind name _ htext
        · exact hbind name _ htext
      · exact hbind name _ htext
    · rename_i hnone
      rw [List.filterMap_cons_none hnone]
      exact ih none state

section Body

variable (index : LineIndex) (owner : Option ClassType) (extent : Ast.Extent)
  (decorated : List Ast.Holder) (items : Option Ast.Parameters) (signature : Signature) (state : State)

/-- The state in which a function is bound: its decorators and default values have been walked. -/
def State.atName : State :=
  let line := index.firstLine extent
  ((do
    enter line
    decorators index line decorated
    defaults index line (Ast.parametersOf items) : Inference Unit).run state).2

/-- The state in which the body of a function is walked: the parameters are bound in its scope. -/
def State.atBody : State :=
  let line := index.firstLine extent
  ((do
    define signature.name (.function signature) line
    openScope signature.name line
    parameters line owner (Ast.parametersOf items) : Inference Unit).run
      (state.atName index extent decorated items)).2

variable {signature} in
/-- A function is walked up to its body, then its body, and then its scope is closed. -/
theorem run_function {name : Option Ast.Name} {returns : Option Ast.Holder} (body : Option Ast.Suite)
    (h : Ast.signature? owner.isSome name items returns = some signature) :
    ((statement index owner (.function extent decorated name items returns body)).run state).2 =
      ((suite index none body).run
        (state.atBody index owner extent decorated items signature)).2.close (index.lastLine extent) := by
  rw [statement]
  simp only [h]
  rfl

/-- Above its body a function leaves the scopes around it as they are, and reads the lines above its
own. -/
theorem inside_atName : Inside (index.firstLine extent) (state.table.seek (index.firstLine extent - 1)) []
    (state.atName index extent decorated items).table := by
  have hlocal : Local (index.firstLine extent) false false (do
      decorators index (index.firstLine extent) decorated
      defaults index (index.firstLine extent) (Ast.parametersOf items)) :=
    .next (local_exprs index _) fun _ => local_defaults index _
  exact (hlocal.stays_self { state with table := state.table.seek (index.firstLine extent - 1) }).table

/-- The table in which the body of a function is walked. The scope of the function is the current one and
holds the parameters, on the line of the header; around it is what was there before. -/
structure Enters (line : Nat) (parameters : List String) (table entered : SymbolTable) (own : Scope) :
    Prop where
  live : entered.live = entered.current :: table.live
  outer_lt : ∀ id ∈ table.live, id < entered.current
  current_lt : entered.current < entered.scopes.length
  le_position : line ≤ entered.position
  scope : entered.scopes[entered.current]? = some own
  lines : ∀ version ∈ own.bindings, version.line = line
  versions : ∀ name ∈ parameters, own.versions name ≠ []
  lookup : ∀ name, findIn entered.scopes (fun scope => scope.latestAt name (line - 1)) table.live =
    (table.seek (line - 1)).lookup? name

private theorem enters_atBody (hcoherent : Coherent state.table.scopes state.table.live) :
    ∃ own, Enters (index.firstLine extent) ((Ast.parametersOf items).filterMap Ast.Parameter.text)
      state.table (state.atBody index owner extent decorated items signature).table own := by
  let line := index.firstLine extent
  let above := state.table.seek (line - 1)
  let named := (state.atName index extent decorated items).table.define
    ⟨signature.name, .function signature, line⟩
  let opened := named.push signature.name line
  obtain ⟨bindings, hnames, hlines, hrun⟩ := run_parameters line owner (Ast.parametersOf items)
    { state.atName index extent decorated items with table := opened }
  have htable : (state.atBody index owner extent decorated items signature).table =
      bindings.foldl SymbolTable.define opened := congrArg State.table hrun
  have hinside : Inside line above [] (state.atName index extent decorated items).table :=
    inside_atName index extent decorated items state
  have habove : Coherent above.scopes above.live := hcoherent
  have hlength : state.table.scopes.length ≤ named.scopes.length := by
    have hle := hinside.length_le
    have hnamed : named.scopes.length = (state.atName index extent decorated items).table.scopes.length :=
      List.length_modify _ _ _
    exact hnamed ▸ hle
  have houter : ∀ id ∈ state.table.live, id < named.scopes.length := fun id hid =>
    Nat.lt_of_lt_of_le (hcoherent.grounded id hid) hlength
  have hlive : named.live = state.table.live := hinside.live
  -- The parameters go to the scope that was just opened.
  let fresh : Scope := ⟨signature.name, line, none, some named.current, named.openCount, []⟩
  have hcurrent : (bindings.foldl SymbolTable.define opened).current = named.scopes.length :=
    current_foldl_define bindings opened
  have hopened : opened.scopes = named.scopes ++ [fresh] := rfl
  have hscopes (id : Nat) : (bindings.foldl SymbolTable.define opened).scopes[id]? =
      if id = named.scopes.length then
        opened.scopes[id]?.map fun scope => bindings.foldl Scope.insert scope
      else opened.scopes[id]? := getElem?_foldl_define bindings opened id
  rw [htable]
  refine ⟨bindings.foldl Scope.insert fresh, ?_, ?_, ?_, ?_, ?_, ?_, ?_, ?_⟩
  · rw [live_foldl_define, hcurrent]
    exact congrArg (named.scopes.length :: ·) hlive
  · rw [hcurrent]
    exact houter
  · rw [hcurrent, length_foldl_define, hopened, List.length_append]
    exact Nat.lt_succ_self _
  · have hreached : line ≤ opened.position := Nat.le_max_right _ _
    exact Nat.le_trans hreached (le_position_foldl_define bindings opened)
  · rw [hcurrent, hscopes, if_pos rfl, hopened, List.getElem?_concat_length]
    rfl
  · intro version hmem
    rcases Scope.mem_foldl_insert hmem with hfresh | hmem
    · cases hfresh
    · exact hlines version hmem
  · intro name hname hnone
    rw [← hnames] at hname
    obtain ⟨binding, hbinding, rfl⟩ := List.mem_map.mp hname
    obtain ⟨version, hversion, _⟩ := Scope.exists_version_foldl_insert fresh hbinding
    rw [hnone] at hversion
    cases hversion
  · intro name
    have hless : line - 1 < line := Nat.sub_lt (index.one_le_line _) Nat.one_pos
    have hatName : Coherent (state.atName index extent decorated items).table.scopes
        (state.atName index extent decorated items).table.live := by
      have hwalk : Walk .anywhere (do
          enter line
          decorators index line decorated
          defaults index line (Ast.parametersOf items)) :=
        .bind (walk_enter trivial) fun _ => .bind (walk_exprs index (Region.anywhere_has line) _) fun _ =>
          walk_defaults index (Region.anywhere_has line) _
      exact (hwalk.reaches state).coherent hcoherent
    have hnamed : (named.seek (line - 1)).lookup? name = (above.seek (line - 1)).lookup? name :=
      (lookup?_define_below hatName hless name).trans (hinside.lookup?_seek habove.grounded nofun _)
    refine Eq.trans ?_ hnamed
    rw [← hlive]
    refine findIn_congr_ids fun id hid => ?_
    have hold : id < named.scopes.length := houter id (hlive ▸ hid)
    rw [hscopes, if_neg (Nat.ne_of_lt hold), hopened, List.getElem?_append_left hold]
    rfl

end Body

/-- What a parameter means where no scope inside the function has a version of its name and the function
has bound it only as a parameter: from the line of the header on the parameter, and above it what the name
means outside, if it is bound there. -/
theorem Enters.record {line : Nat} {parameters : List String} {table entered : SymbolTable} {own : Scope}
    (h : Enters line parameters table entered own) {opened : List Nat} {use : Use}
    (hsurrounds : Surrounds entered opened use.table) (hname : use.site.text ∈ parameters)
    (hopened : ∀ id ∈ opened, ∀ scope, use.table.scopes[id]? = some scope →
      scope.versions use.site.text = [])
    (hkept : ∀ scope, use.table.scopes[entered.current]? = some scope →
      scope.versions use.site.text = own.versions use.site.text)
    (hposition : line - 1 ≤ use.table.position) :
    (line ≤ use.table.position ∨ (table.seek (line - 1)).lookup? use.site.text = none →
      ∃ version ∈ own.versions use.site.text,
        use.record = some ⟨version, entered.current, table.live.length⟩) ∧
    (use.table.position < line → ∀ record, (table.seek (line - 1)).lookup? use.site.text = some record →
      use.record = some record) := by
  obtain ⟨now, hnow⟩ : ∃ now, use.table.scopes[entered.current]? = some now :=
    ⟨_, List.getElem?_eq_getElem (Nat.lt_of_lt_of_le h.current_lt hsurrounds.length_le)⟩
  have hversions := hkept now hnow
  have hlines : ∀ version ∈ now.versions use.site.text, version.line = line := by
    rw [hversions]
    exact fun version hmem => h.lines version (Scope.mem_versions.mp hmem).1
  have hlive : use.table.live = opened ++ entered.current :: table.live := by
    rw [hsurrounds.live, h.live]
  -- Nothing is found in the scopes opened inside the function.
  have hinner (find : Scope → Option Binding) (hfind : ∀ scope : Scope,
      scope.versions use.site.text = [] → find scope = none) :
      findIn use.table.scopes find use.table.live =
        findIn use.table.scopes find (entered.current :: table.live) := by
    rw [hlive]
    refine findIn_append_of_none (fun id hid => ?_) _
    cases hscope : use.table.scopes[id]? with
    | none => rfl
    | some scope => exact hfind scope (hopened id hid scope hscope)
  have hlatest : use.table.scopes[entered.current]?.bind
      (fun scope => scope.latestAt use.site.text use.table.position) =
        if line ≤ use.table.position then (own.versions use.site.text).getLast? else none := by
    rw [hnow, Option.bind_some, Scope.latestAt_of_line hlines, hversions]
  have hlookup : use.table.lookup? use.site.text = findIn use.table.scopes
      (fun scope => scope.latestAt use.site.text use.table.position) (entered.current :: table.live) :=
    hinner _ fun scope hnil => Scope.latestAt_of_versions_nil hnil _
  have hbound : own.versions use.site.text ≠ [] := h.versions _ hname
  -- Below the header the parameter is found; above it the scopes outside are asked.
  by_cases hbelow : line ≤ use.table.position
  · rw [if_pos hbelow] at hlatest
    obtain ⟨version, hversion⟩ : ∃ version, (own.versions use.site.text).getLast? = some version :=
      ⟨_, List.getLast?_eq_some_getLast hbound⟩
    refine ⟨fun _ => ⟨version, List.mem_of_getLast? hversion, ?_⟩, fun hless => absurd hbelow (Nat.not_le.mpr hless)⟩
    rw [Use.record, SymbolTable.resolve?, hlookup, findIn_cons_of_some (hlatest.trans hversion)]
    rfl
  · rw [if_neg hbelow] at hlatest
    have habove : use.table.position = line - 1 := by omega
    have houter : use.table.lookup? use.site.text = (table.seek (line - 1)).lookup? use.site.text := by
      rw [hlookup, findIn_cons_of_none hlatest, habove, ← h.lookup]
      refine findIn_congr_ids fun id hid => ?_
      have hother : id ≠ entered.current := Nat.ne_of_lt (h.outer_lt id hid)
      rw [hsurrounds.kept id (Nat.lt_trans (h.outer_lt id hid) h.current_lt) hother]
    constructor
    · intro hcondition
      have hnone := hcondition.resolve_left hbelow
      obtain ⟨version, hversion⟩ : ∃ version, (own.versions use.site.text).head? = some version :=
        ⟨_, List.head?_eq_some_head hbound⟩
      have hdeclared : use.table.lookupDeclared? use.site.text =
          some ⟨version, entered.current, table.live.length⟩ := by
        rw [lookupDeclared?, hinner _ fun scope hnil => by rw [hnil]; rfl]
        refine findIn_cons_of_some ?_ _
        rw [hnow, Option.bind_some, hversions, hversion]
      refine ⟨version, List.mem_of_mem_head? hversion, ?_⟩
      rw [Use.record, SymbolTable.resolve?, houter, hnone, hdeclared]
      rfl
    · intro _ record hrecord
      rw [Use.record, SymbolTable.resolve?, houter, hrecord]
      rfl

/-- A parameter shadows outer names in the body of its function. A use of it there means the version bound
in the scope of the function, as long as the function has not bound the name again and no lambda,
comprehension or definition around the use binds it, whatever is bound outside, if all statements of the
body start below the line of the header, or if the position has come to this line, or if the name is bound
nowhere outside on a line above it. Else the outer version made above the header comes first. -/
theorem parameter_shadows (text : List Char) (index : LineIndex) (owner : Option ClassType)
    (extent : Ast.Extent) (decorated : List Ast.Holder) (name : Option Ast.Name)
    (items : Option Ast.Parameters) (returns : Option Ast.Holder) (body : Option Ast.Suite)
    (hmem : .function extent decorated name items returns body ∈
      (Ast.Script.ofTree (Syntax.parse text).tree).all)
    (signature : Signature) (hsignature : Ast.signature? owner.isSome name items returns = some signature)
    (state : State) (hcoherent : Coherent state.table.scopes state.table.live) :
    let line := index.firstLine extent
    let above := state.table.seek (line - 1)
    let entered := state.atBody index owner extent decorated items signature
    let walked := ((suite index none body).run entered).2
    let scope := entered.table.current
    let later := ((statement index owner (.function extent decorated name items returns body)).run state).2
    later = walked.close (index.lastLine extent) ∧
      ∃ own, entered.table.scopes[scope]? = some own ∧ (∀ version ∈ own.bindings, version.line = line) ∧
        (∀ p ∈ (Ast.parametersOf items).filterMap Ast.Parameter.text, own.versions p ≠ []) ∧
        ∃ uses, walked.uses = entered.uses ++ uses ∧ ∀ use ∈ uses,
          use.site.text ∈ (Ast.parametersOf items).filterMap Ast.Parameter.text →
          ∃ opened, use.table.live = opened ++ scope :: state.table.live ∧
            ((∀ id ∈ opened, ∀ inner, use.table.scopes[id]? = some inner →
                inner.versions use.site.text = []) →
              (∀ now, use.table.scopes[scope]? = some now →
                now.versions use.site.text = own.versions use.site.text) →
              ((∀ s ∈ Ast.statementsOf body, line < index.firstLine s.extent) ∨
                  line ≤ use.table.position ∨ above.lookup? use.site.text = none →
                ∃ version ∈ own.versions use.site.text,
                  use.record = some ⟨version, scope, state.table.live.length⟩) ∧
              (use.table.position < line → ∀ record, above.lookup? use.site.text = some record →
                use.record = some record)) := by
  intro line above entered walked scope later
  obtain ⟨own, henters⟩ := enters_atBody index owner extent decorated items signature state hcoherent
  obtain ⟨hstarts, hbounds⟩ := bounds_body index hmem
  have hlive : entered.table.live = scope :: state.table.live := henters.live
  refine ⟨run_function index owner extent decorated items state body hsignature, own, henters.scope,
    henters.lines, henters.versions, ?_⟩
  -- The body keeps below the first line of its statements, wherever this is.
  have haround (first : Nat) (hfirst : ∀ s ∈ Ast.statementsOf body, first ≤ index.firstLine s.extent)
      (hreached : first ≤ entered.table.position + 1) :
      ∃ uses, walked.uses = entered.uses ++ uses ∧ ∀ use ∈ uses, first ≤ use.table.position + 1 ∧
        ∃ opened, Surrounds entered.table opened use.table := by
    obtain ⟨last, hbody⟩ := hbounds first hfirst
    have hwalk := (walk_suite index none body hbody).around (Surrounds.refl entered.table) hreached
    obtain ⟨uses, huses, hsees⟩ := hwalk.uses
    refine ⟨uses, huses, fun use hmem => ?_⟩
    obtain ⟨hposition, opened, hsurrounds⟩ := hsees use hmem
    rw [List.append_nil] at hsurrounds
    exact ⟨hposition, opened, hsurrounds⟩
  have hline : line ≤ entered.table.position := henters.le_position
  obtain ⟨uses, huses, hsees⟩ := haround line hstarts (Nat.le_succ_of_le hline)
  refine ⟨uses, huses, fun use hmem hname => ?_⟩
  obtain ⟨hposition, opened, hsurrounds⟩ := hsees use hmem
  refine ⟨opened, ?_, ?_⟩
  · rw [hsurrounds.live, hlive]
  intro hopened hkept
  obtain ⟨hshadows, houtside⟩ :=
    henters.record hsurrounds hname hopened hkept (Nat.sub_le_of_le_add hposition)
  refine ⟨fun hcondition => hshadows ?_, houtside⟩
  rcases hcondition with hbelow | hcondition
  · obtain ⟨others, hothers, hdeeper⟩ := haround (line + 1) hbelow (Nat.succ_le_succ hline)
    obtain rfl : others = uses := List.append_cancel_left (hothers.symm.trans huses)
    exact .inl (Nat.le_of_succ_le_succ (hdeeper use hmem).1)
  · exact hcondition

/-- In a body below the header the parameter `p` is read, although `p` is bound outside too. -/
theorem parameter_shadows_outer :
    let text := "\ndef f(p):\n p".toList
    ∃ s ∈ (Ast.Script.ofTree (Syntax.parse text).tree).all,
      let outside := (initial false).define ⟨"p", .primitive .int, 1⟩
      let later := ((statement (.ofText text) none s).run (.start outside)).2
      later.uses.map Use.record = [some ⟨⟨"p", .any, 2⟩, 1, 1⟩] := by
  intro text
  let word : Ast.Leaf := ⟨.keyword .defWord, "def", ⟨1, 4⟩⟩
  let paren : Ast.Leaf := ⟨.symbol .leftParen, "(", ⟨6, 7⟩⟩
  let own : Ast.Leaf := ⟨.name, "f", ⟨5, 6⟩⟩
  let bound : Ast.Leaf := ⟨.name, "p", ⟨7, 8⟩⟩
  let used : Ast.Leaf := ⟨.name, "p", ⟨12, 13⟩⟩
  let items : Ast.Parameters := ⟨⟨⟨6, 9⟩, some paren, 9⟩,
    [⟨⟨⟨7, 8⟩, some bound, 8⟩, some ⟨⟨⟨7, 8⟩, some bound, 8⟩, some bound⟩, none, none, false⟩]⟩
  let inner : Ast.Statement := .expressionStatement ⟨⟨12, 13⟩, some used, 13⟩
    [.name ⟨⟨⟨12, 13⟩, some used, 13⟩, some used⟩] false false none
  let body : Ast.Suite := ⟨⟨⟨10, 13⟩, some used, 13⟩, [inner]⟩
  let s : Ast.Statement := .function ⟨⟨1, 13⟩, some word, 13⟩ []
    (some ⟨⟨⟨5, 6⟩, some own, 6⟩, some own⟩) (some items) none (some body)
  have hall : (Ast.Script.ofTree (Syntax.parse "\ndef f(p):\n p".toList).tree).all = [s, inner] := by cbv
  have hmem : s ∈ (Ast.Script.ofTree (Syntax.parse text).tree).all := hall ▸ List.mem_cons_self
  refine ⟨s, hmem, ?_⟩
  intro outside later
  have hcoherent : Coherent outside.scopes outside.live :=
    coherent_step (coherent_initial false) (.define ⟨"p", .primitive .int, 1⟩)
  obtain ⟨hlater, own, hown, _, _, uses, huses, hreads⟩ := parameter_shadows text (.ofText text) none _ []
    _ _ none _ hmem ⟨"f", [⟨"p", none, false⟩], none, false⟩ rfl (.start outside) hcoherent
  let entered := (State.start outside).atBody (.ofText text) none ⟨⟨1, 13⟩, some word, 13⟩ [] (some items)
    ⟨"f", [⟨"p", none, false⟩], none, false⟩
  have hwalked : ((suite (.ofText text) none (some body)).run entered).2.uses = entered.uses ++
      [⟨Text.LineIndex.leafSite (.ofText text) used, entered.table.seek 2⟩] := by
    decide +kernel
  obtain rfl := List.append_cancel_left (huses.symm.trans hwalked)
  obtain ⟨opened, hlive, hread⟩ := hreads _ (List.mem_singleton_self _) (by decide)
  obtain rfl : opened = [] := by
    cases opened with
    | nil => rfl
    | cons id rest =>
      cases rest with
      | nil => cases hlive
      | cons other rest => cases rest <;> cases hlive
  obtain ⟨hshadows, _⟩ := hread (List.forall_mem_nil _) (by
    intro now hnow
    rw [Option.some.inj (hnow.symm.trans hown)])
  obtain ⟨version, hversion, hrecord⟩ := hshadows (.inl (by decide))
  obtain rfl := Option.some.inj hown
  obtain rfl := List.mem_singleton.mp hversion
  have huse : later.uses = _ := congrArg State.uses hlater
  rw [huse, State.uses_close, huses]
  exact congrArg (fun record => [record]) hrecord

end Inference

end QuantumScript
