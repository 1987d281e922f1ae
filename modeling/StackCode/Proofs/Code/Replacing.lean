import StackCode.InstructionSet.Small
import StackCode.Proofs.Code.Patterns
import StackCode.Proofs.Code.Walks

/-!
Searches that replace what they match.  Where every match that covers instructions is replaced by
other instructions, searching and editing in turns is the same as finding all the matches first.
-/

namespace StackCode

variable {σ : Type}

/-- The editor goes on, puts instructions in place of those that were matched, and leaves the block
alone where none were. -/
structure Editor.Replaces (editor : Editor σ) (matcher : Matcher Instruction CodeCapture) :
    Prop where
  proceeds : ∀ (block : BasicBlock) (found : Match CodeCapture) (metadata : Metadata) (state : σ),
    matcher.Gives block.instructions.toArray found →
      (editor block found metadata state).control = .ok .proceed
  replaced : ∀ (block : BasicBlock) (found : Match CodeCapture) (metadata : Metadata) (state : σ),
    matcher.Gives block.instructions.toArray found → found.start < found.stop →
      ∃ window, window ≠ [] ∧
        (editor block found metadata state).block = block.splice found.start found.stop window
  untouched : ∀ (block : BasicBlock) (found : Match CodeCapture) (metadata : Metadata) (state : σ),
    matcher.Gives block.instructions.toArray found → found.start = found.stop →
      (editor block found metadata state).block = block

theorem BasicBlock.splice_nil (block : BasicBlock) (start : Nat) :
    block.splice start start [] = block := by
  rw [splice, List.append_nil, List.take_append_drop]

theorem Editor.Replaces.splices {editor : Editor σ} {matcher : Matcher Instruction CodeCapture}
    (h : editor.Replaces matcher) :
    editor.Splices matcher fun size window => window = [] ↔ size = 0 := by
  intro block found metadata state hgives
  refine ⟨h.proceeds block found metadata state hgives, ?_⟩
  rcases Nat.lt_or_eq_of_le hgives.covers.le with hlt | heq
  · obtain ⟨window, hwindow, hblock⟩ := h.replaced block found metadata state hgives hlt
    have hsize : found.size ≠ 0 := Nat.sub_ne_zero_of_lt hlt
    exact ⟨window, iff_of_false hwindow hsize, hblock⟩
  · refine ⟨[], iff_of_true rfl (by rw [Match.size, heq, Nat.sub_self]), ?_⟩
    rw [h.untouched block found metadata state hgives heq, ← heq, BasicBlock.splice_nil]

/-- Where windows are empty for empty matches only, a search goes on as one that edits nothing. -/
theorem Matcher.Sweeps.finds {matcher : Matcher Instruction CodeCapture}
    {body : Array Instruction} {position : Nat} {replacements : List Replacement}
    (h : matcher.Sweeps body position replacements)
    (hfits : ∀ replacement ∈ replacements,
      replacement.window = [] ↔ replacement.found.size = 0) :
    matcher.Finds body position (replacements.map (·.found)) := by
  induction h with
  | none h => exact .none h
  | @some position first rest h _ ih =>
    obtain ⟨hfirst, hrest⟩ := List.forall_mem_cons.mp hfits
    obtain ⟨-, -, hcovers⟩ := covers_of_converges h
    have hnext : first.found.stop + first.gap = max first.found.stop (first.found.start + 1) := by
      have hle := hcovers.le
      rw [Match.size] at hfirst
      rw [Replacement.gap]
      split
      · rename_i hwindow
        have hsize := hfirst.mp hwindow
        omega
      · rename_i hwindow
        have hsize : first.found.stop - first.found.start ≠ 0 := fun h => hwindow (hfirst.mpr h)
        omega
    exact .some h (hnext ▸ ih hrest)

/-- Searching and replacing in turns is finding all the matches in the original bodies, handing them
over in their order, and leaving the windows in their place. -/
theorem Graph.edit_replaces {graph : Graph} {pattern : CodePattern} {editor : Editor σ}
    (hfinishes : ∀ leaf ∈ graph.leaves, pattern.Finishes leaf.instructions.toArray)
    (heditor : editor.Replaces { pattern, strategy := .longest }) (state : σ) :
    ∃ replacements result, List.Forall₂ (fun leaf replacements =>
        Converges (fun fuel => Matcher.findAll { pattern, strategy := .longest } fuel
            leaf.instructions.toArray false)
          (replacements.map fun replacement : Replacement => .ok replacement.found) ∧
        ∀ replacement ∈ replacements, replacement.window = [] ↔ replacement.found.size = 0)
        graph.leaves replacements ∧
      graph.Edited editor state replacements result ∧
      Converges (fun fuel => graph.edit fuel pattern editor state) result := by
  obtain ⟨replacements, result, hsweeps, hedited, hconverges⟩ :=
    edit_converges heditor.splices (fun _ hwindow => hwindow.mpr rfl) hfinishes state
  refine ⟨replacements, result, hsweeps.imp fun leaf replacements h => ?_, hedited, hconverges⟩
  obtain ⟨hsweeps, hfits⟩ := h
  have hfinds := (hsweeps.finds hfits).findAll
  rw [List.map_map] at hfinds
  exact ⟨hfinds, hfits⟩

/-- Doubles what was matched, counts the matches and raises the stack bound. -/
def Editor.doubling : Editor Nat := fun block found metadata count =>
  let matched := (block.instructions.drop found.start).take found.size
  { block := block.splice found.start found.stop (matched ++ matched)
    metadata := { metadata with stackSize := metadata.stackSize + 1 }
    state := count + 1
    control := .ok .proceed }

theorem Editor.doubling_replaces (matcher : Matcher Instruction CodeCapture) :
    doubling.Replaces matcher where
  proceeds _ _ _ _ _ := rfl
  replaced block found metadata count hgives hlt := by
    refine ⟨_, fun hwindow => ?_, rfl⟩
    have hlength := congrArg List.length (List.append_eq_nil_iff.mp hwindow).1
    have hstop := hgives.covers.stop_le
    rw [List.size_toArray] at hstop
    rw [List.length_take, List.length_drop, Match.size, List.length_nil] at hlength
    omega
  untouched block found metadata count _ heq := by
    have hsize : found.size = 0 := by rw [Match.size, heq, Nat.sub_self]
    rw [doubling]
    simp only [hsize, List.take_zero, List.append_nil, ← heq]
    exact block.splice_nil found.start

/-- A program for the small machine with two instructions that do nothing, one behind the other. -/
def idling : Graph where
  metadata := default
  isa := .small
  entry := 1
  blocks :=
    [(1, .basic
      { id := 1
        instructions := [.simple 9, .simple 9, { opcode := 100, operand := .constant (.int 1) }]
        jump := none
        fallthrough := none
        line := none })]

theorem idling_replaces : ∃ replacements result, List.Forall₂ (fun leaf replacements =>
        Converges (fun fuel => Matcher.findAll
            { pattern := CodePattern.opcode 9 none none, strategy := .longest } fuel
            leaf.instructions.toArray false)
          (replacements.map fun replacement : Replacement => .ok replacement.found) ∧
        ∀ replacement ∈ replacements, replacement.window = [] ↔ replacement.found.size = 0)
        idling.leaves replacements ∧
      idling.Edited Editor.doubling 0 replacements result ∧
      Converges (fun fuel => idling.edit fuel (CodePattern.opcode 9 none none) Editor.doubling 0)
        result :=
  Graph.edit_replaces (fun _ _ => CodePattern.opcode_finishes 9 _) (Editor.doubling_replaces _) 0

end StackCode
