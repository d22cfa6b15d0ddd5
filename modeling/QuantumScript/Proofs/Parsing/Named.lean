import QuantumScript.Proofs.Parsing.Conforming
/-!
# Names in trees

Whatever the source, a node that stands for a name holds the token of the name and no other token that
counts.
-/

namespace QuantumScript

namespace Syntax

namespace Tree

/-- Every node for a name in the tree holds one token, its name; blanks and comments aside. -/
def Named : Tree → Prop :=
  Each fun kind children => kind = .name → ∃ text, bareAll children = [.token .name text]

private theorem named_of_bare {tree : Tree} : tree.bare.Named → tree.Named :=
  each_of_bare fun _ children h => bareAll_bareAll children ▸ h

end Tree

namespace Script

variable {Rule : Type}

/-- The script takes a name and nothing else. -/
def takesName : Script Rule → Bool
  | .bump kind => decide (kind = .name)
  | _ => false

/-- Nodes for names are made of the token of the name only. -/
def names : Script Rule → Bool
  | .seq first second => names first && names second
  | .cond test yes no => names test && names yes && names no
  | .node (.always kind) body => (decide (kind ≠ .name) || takesName body) && names body
  | .node (.unlessComprehension kind) body | .wrap kind body | .statement kind body =>
    decide (kind ≠ .name) && names body
  | .node .definition body | .loop body => names body
  | _ => true

private theorem named_node {grammar : Rule → Script Rule} {label : Label} {body : Script Rule}
    {sketch after : Sketch} {ignored : Bool}
    (hbody : Reads grammar body { sketch with parts := [] } ignored after)
    (hnames : names (.node label body) = true)
    (hlabel : label.resolve after.parts.reverse = .name) :
    ∃ text, Tree.bareAll after.parts.reverse = [.token .name text] := by
  cases label with
  | always kind =>
    rw [Label.resolve] at hlabel
    rw [names, hlabel, Bool.and_eq_true] at hnames
    have htakes : takesName body = true := hnames.1
    cases hbody with
    | @bump kind _ hcurrent =>
      obtain rfl : kind = .name := of_decide_eq_true htakes
      obtain ⟨rest, parts, problems⟩ := sketch
      cases rest with
      | nil => cases hcurrent
      | cons token rest =>
        have hkind : token.kind = .name := hcurrent
        refine ⟨token.text, ?_⟩
        show Tree.bareAll [token.leaf] = _
        rw [Token.leaf, hkind]
        rfl
    | _ => cases htakes
  | unlessComprehension kind =>
    rw [Label.resolve] at hlabel
    rw [names, Bool.and_eq_true] at hnames
    split at hlabel
    · cases hlabel
    · exact absurd hlabel (of_decide_eq_true hnames.1)
  | definition =>
    rw [Label.resolve] at hlabel
    split at hlabel
    · cases hlabel
    · split at hlabel <;> cases hlabel

private theorem names_body {label : Label} {body : Script Rule}
    (hnames : names (.node label body) = true) : names body = true := by
  cases label with
  | definition => exact hnames
  | _ => exact (Bool.and_eq_true _ _ ▸ hnames).2

theorem Reads.named {grammar : Rule → Script Rule} (hrules : ∀ rule, names (grammar rule) = true)
    {script : Script Rule} {sketch after : Sketch} {answer : Bool}
    (h : Reads grammar script sketch answer after) (hnames : script.names = true)
    (hnamed : ∀ tree ∈ sketch.parts, tree.Named) : ∀ tree ∈ after.parts, tree.Named := by
  induction h with
  | answer | demand | report | ask => exact hnamed
  | bump | advance => exact Sketch.each_take hnamed
  | call _ ih => exact ih (hrules _) hnamed
  | seq _ _ ihfirst ihsecond =>
    rw [names, Bool.and_eq_true] at hnames
    exact ihsecond hnames.2 (ihfirst hnames.1 hnamed)
  | yes _ _ ihtest ihyes =>
    rw [names, Bool.and_eq_true, Bool.and_eq_true] at hnames
    exact ihyes hnames.1.2 (ihtest hnames.1.1 hnamed)
  | no _ _ ihtest ihno =>
    rw [names, Bool.and_eq_true, Bool.and_eq_true] at hnames
    exact ihno hnames.2 (ihtest hnames.1.1 hnamed)
  | node hbody ih =>
    refine List.forall_mem_cons.mpr ⟨.node (named_node hbody hnames) fun tree hmem => ?_, hnamed⟩
    exact ih (names_body hnames) nofun tree (List.mem_reverse.mp hmem)
  | wrap _ ih =>
    rw [names, Bool.and_eq_true] at hnames
    obtain ⟨hpart, hparts⟩ := List.forall_mem_cons.mp hnamed
    refine List.forall_mem_cons.mpr ⟨.node ?_ fun tree hmem => ?_, hparts⟩
    · exact fun hkind => absurd hkind (of_decide_eq_true hnames.1)
    · exact ih hnames.2 (List.forall_mem_singleton.mpr hpart) tree (List.mem_reverse.mp hmem)
  | statement _ hafter ih =>
    subst hafter
    rw [names, Bool.and_eq_true] at hnames
    refine List.forall_mem_cons.mpr ⟨.node ?_ fun tree hmem => ?_, hnamed⟩
    · intro hkind
      split at hkind
      · cases hkind
      · exact absurd hkind (of_decide_eq_true hnames.1)
    · exact Sketch.each_finishStatement _ (ih hnames.2 nofun) tree (List.mem_reverse.mp hmem)
  | stop _ ih => exact ih hnames hnamed
  | round _ _ _ ihbody ihloop => exact ihloop hnames (ihbody hnames hnamed)

end Script

/-- Whatever the source, its names are plain tokens. -/
theorem parse_named (source : List Char) : (parse source).tree.Named := by
  obtain ⟨sketch, hread, hbare, -⟩ := parse_read source
  have hrules : ∀ rule, Script.names (grammar rule) = true := by
    intro rule
    cases rule <;> decide
  have hsketch := (Script.reads_of_read hread).named hrules (by decide) nofun
  apply Tree.named_of_bare
  rw [hbare]
  refine .node nofun fun tree hmem => hsketch tree (List.mem_reverse.mp hmem)

end Syntax

end QuantumScript
