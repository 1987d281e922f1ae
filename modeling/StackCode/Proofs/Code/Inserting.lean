import StackCode.Proofs.Code.Replacing

/-!
Searches that put instructions where they match nothing.  Behind such an insertion the search finds
the same empty match once more, so that it ends only if the editor leaves the match alone at last.
-/

namespace StackCode

variable {σ : Type}

/-- A search whose editor keeps to the windows makes at most one replacement for each instruction of
a body, apart from those that insert at an empty match.  Only at an empty match where the editor
inserts whenever it is handed the match does the search go on for ever. -/
theorem Graph.edit_ends_or_stalls {graph : Graph} {pattern : CodePattern} {editor : Editor σ}
    (hfinishes : ∀ leaf ∈ graph.leaves, pattern.Finishes leaf.instructions.toArray)
    (heditor : editor.Splices { pattern, strategy := .longest } fun _ _ => True) (state : σ) :
    (∃ replacements result, List.Forall₂ (fun leaf replacements =>
        Matcher.Sweeps { pattern, strategy := .longest } leaf.instructions.toArray 0 replacements ∧
          replacements.length ≤
            leaf.instructions.length + replacements.countP (·.inserts))
        graph.leaves replacements ∧
      graph.Edited editor state replacements result ∧
      Converges (fun fuel => graph.edit fuel pattern editor state) result) ∨
    editor.Stalls { pattern, strategy := .longest } (fun _ _ => True) graph.leaves
        { metadata := graph.metadata, state, matchCount := 0, status := .running } ∧
      CodeSearch.Unbounded fun fuel => graph.edit fuel pattern editor state := by
  rcases edit_outcome heditor hfinishes state with hends | ⟨hstalls, -, hunbounded⟩
  · obtain ⟨replacements, result, hsweeps, hedited, hconverges⟩ := hends
    refine .inl ⟨replacements, result, hsweeps.imp fun leaf made h => ?_, hedited, hconverges⟩
    obtain ⟨last, hsweeping⟩ := h.1.sweeping
    exact ⟨h.1, hsweeping.length_le⟩
  · exact .inr ⟨hstalls, hunbounded⟩

/-- Puts an instruction that does nothing in front of what was matched, as often as the count says,
and leaves what was matched in place. -/
def Editor.padding : Editor Nat := fun block found metadata count =>
  let matched := (block.instructions.drop found.start).take found.size
  { block := block.splice found.start found.stop
      (if count = 0 then matched else .simple 9 :: matched)
    metadata
    state := count - 1
    control := .ok .proceed }

theorem Editor.padding_splices (matcher : Matcher Instruction CodeCapture) :
    padding.Splices matcher fun _ _ => True :=
  fun _ _ _ _ _ => ⟨rfl, _, trivial, rfl⟩

/-- The pattern matches in front of two instructions, and the editor inserts twice.  It is handed
four matches, as the first one is found again behind each of the two insertions. -/
theorem idling_padded :
    (∀ leaf ∈ idling.leaves, (Pattern.lookahead (CodePattern.opcode 9 none none) true).Finishes
      leaf.instructions.toArray) ∧
    Editor.padding.Splices
      { pattern := .lookahead (CodePattern.opcode 9 none none) true, strategy := .longest }
      (fun _ _ => True) ∧
    idling.leaves.map (·.instructions.length) = [3] ∧
    Converges (fun fuel =>
        let result := idling.edit fuel (.lookahead (CodePattern.opcode 9 none none) true)
          Editor.padding 2
        (result.1.leaves.map (·.instructions.length), result.2.matchCount, result.2.status))
      ([5], 4, .running) := by
  refine ⟨fun _ _ => CodePattern.lookahead_opcode_finishes 9 _ true, Editor.padding_splices _, rfl,
    12, fun fuel hfuel => ?_⟩
  obtain ⟨fuel, rfl⟩ : ∃ less, fuel = less + 12 := ⟨fuel - 12, by omega⟩
  rfl

theorem idling_ends_or_stalls :
    (∃ replacements result, List.Forall₂ (fun leaf replacements =>
        Matcher.Sweeps
            { pattern := .lookahead (CodePattern.opcode 9 none none) true, strategy := .longest }
            leaf.instructions.toArray 0 replacements ∧
          replacements.length ≤ leaf.instructions.length + replacements.countP (·.inserts))
        idling.leaves replacements ∧
      idling.Edited Editor.padding 2 replacements result ∧
      Converges (fun fuel => idling.edit fuel
        (.lookahead (CodePattern.opcode 9 none none) true) Editor.padding 2) result) ∨
    Editor.padding.Stalls
        { pattern := .lookahead (CodePattern.opcode 9 none none) true, strategy := .longest }
        (fun _ _ => True) idling.leaves
        { metadata := idling.metadata, state := 2, matchCount := 0, status := .running } ∧
      CodeSearch.Unbounded fun fuel => idling.edit fuel
        (.lookahead (CodePattern.opcode 9 none none) true) Editor.padding 2 :=
  Graph.edit_ends_or_stalls (fun _ _ => CodePattern.lookahead_opcode_finishes 9 _ true)
    (Editor.padding_splices _) 2

end StackCode
