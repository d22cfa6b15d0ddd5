import QuantumScript.Proofs.Parsing.Contracts
import QuantumScript.Proofs.Parsing.Faults
/-!
# Soundness of the grammar

Whatever the source, its parse ends at the end of the input and takes no step that a sound grammar
never takes: no token is missing where one is demanded, no node begins beyond the finished parts, no
loop goes on without taking a token, and calls are never cut off. So the parse is what the strict
reading of the grammar says, blanks and comments aside.
-/

namespace QuantumScript

namespace Syntax

namespace Script

private theorem sketched_start (tokens : List Token) :
    Sketched [] (.start tokens) ⟨Token.significant tokens, [], []⟩ :=
  ⟨rfl, ⟨[], rfl, rfl⟩, rfl, rfl⟩

private theorem length_significant_le (tokens : List Token) :
    (Token.significant tokens).length ≤ tokens.length :=
  List.length_filter_le _ tokens

/-- Running the grammar on any tokens and reading it strictly end alike. -/
theorem run_file (tokens : List Token) :
    ∃ next sketch,
      Production.file.run (runRule grammar (callDepth * (tokens.length + 1))) (.start tokens) =
        (true, next) ∧
      read grammar Production.file ⟨Token.significant tokens, [], []⟩ = some (true, sketch) ∧
      Sketched [] next sketch ∧ sketch.current = .endOfInput := by
  have hlength := length_significant_le tokens
  have hcalls : CallsKept grammar Rule.promises Rule.rank
      (runRule grammar (callDepth * (tokens.length + 1))) callDepth
      (Token.significant tokens).length := by
    intro rule parse sketch hless
    apply kept
    have hrank := rule.rank_lt
    unfold callDepth at hrank ⊢
    omega
  have hstart : (Facts.start (.except [])).Hold [] ⟨Token.significant tokens, [], []⟩
      (.start tokens) ⟨Token.significant tokens, [], []⟩ := by
    refine ⟨Kinds.allows_except [] _, ?_, rfl, ?_⟩
    · intro kind hkind
      cases hkind
    · intro hmarked
      cases hmarked
  obtain ⟨outcomes, hforecast, hall⟩ := forecast_file
  obtain ⟨answer, next, sketch, facts, hrun, hread, hmem, hnext, hhold⟩ :=
    truthful hcalls Production.file hforecast (sketched_start tokens) hstart (Nat.le_refl _)
      (by simp)
  obtain ⟨hanswer, himplies⟩ := hall _ hmem
  dsimp only at hanswer himplies
  subst hanswer
  refine ⟨next, sketch, hrun, hread, hnext, ?_⟩
  simpa using Kinds.allows_of_implies himplies hhold.kinds

end Script

/-- No parse meets a fault. A fault is never forgotten, so no step on the way has set one; the parse
does not change if calls may be nested deeper, and all its steps are those of the strict reading,
which has no result if a step fails, a round of a loop takes no token or reading goes on forever. -/
theorem parse_faultless (source : List Char) :
    ∃ next sketch,
      (∀ depth, callDepth * ((Token.ofText source).length + 1) ≤ depth →
        Production.file.run (Script.runRule grammar depth) (.start (Token.ofText source)) =
          (true, next)) ∧
      next.fault = false ∧
      Production.file.read grammar ⟨Token.significant (Token.ofText source), [], []⟩ =
        some (true, sketch) ∧
      Sketched [] next sketch ∧ sketch.current = .endOfInput ∧
      parseTokens (Token.ofText source) = next.shiftWhile (fun _ => true) := by
  obtain ⟨next, sketch, hrun, hread, hsketch, hend⟩ := Script.run_file (Token.ofText source)
  refine ⟨next, sketch, ?_, hsketch.sound, hread, hsketch, hend, ?_⟩
  · intro depth hdepth
    rw [← hrun]
    apply Script.run_extends (Script.runRule_keeps grammar _)
      (Script.runRule_extends grammar hdepth)
    rw [hrun]
    exact hsketch.sound
  · rw [parseTokens, hrun]

end Syntax

end QuantumScript
