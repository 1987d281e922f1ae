import Mathlib.Data.List.Chain
import StackCode.Proofs.Code.Replacing

/-!
Searches that delete what they match.  Behind an empty window the search passes over one
instruction, so that a match which begins where the one before it ends is left in place.  All the
matches are deleted exactly if no two of them touch.
-/

namespace StackCode

variable {σ : Type}

/-- The editor goes on, and deletes the instructions that were matched. -/
structure Editor.Deletes (editor : Editor σ) (matcher : Matcher Instruction CodeCapture) :
    Prop where
  proceeds : ∀ (block : BasicBlock) (found : Match CodeCapture) (metadata : Metadata) (state : σ),
    matcher.Gives block.instructions.toArray found →
      (editor block found metadata state).control = .ok .proceed
  deleted : ∀ (block : BasicBlock) (found : Match CodeCapture) (metadata : Metadata) (state : σ),
    matcher.Gives block.instructions.toArray found →
      (editor block found metadata state).block = block.splice found.start found.stop []

theorem Editor.Deletes.splices {editor : Editor σ} {matcher : Matcher Instruction CodeCapture}
    (h : editor.Deletes matcher) : editor.Splices matcher fun _ window => window = [] :=
  fun block found metadata state hgives =>
    ⟨h.proceeds block found metadata state hgives, [], rfl,
      h.deleted block found metadata state hgives⟩

/-- A match that is deleted. -/
def Match.deletion (found : Match CodeCapture) : Replacement := { found, window := [] }

theorem substitute_deletion (body : List Instruction) (base : Nat) (found : Match CodeCapture)
    (rest : List Replacement) : substitute body base (found.deletion :: rest) =
      (body.drop base).take (found.start - base) ++ substitute body found.stop rest := by
  rw [Match.deletion, substitute, List.append_nil]

/-- No match begins where the one before it ends. -/
def Match.Spaced (found : List (Match CodeCapture)) : Prop :=
  found.IsChain fun first second => first.stop ≠ second.start

namespace Matcher

variable {matcher : Matcher Instruction CodeCapture} {body : Array Instruction}

/-- Matches that do not begin at `position` are found from the place behind it as well. -/
theorem Finds.succ {position : Nat} {found : List (Match CodeCapture)}
    (h : matcher.Finds body position found)
    (hbehind : ∀ first ∈ found.head?, first.start ≠ position) :
    matcher.Finds body (position + 1) found := by
  cases h with
  | none h =>
    obtain ⟨need, h⟩ := h
    exact .none ⟨need, fun fuel hfuel =>
      searchFrom_succ (h fuel hfuel) fun _ hnone => nomatch hnone⟩
  | some h hrest =>
    obtain ⟨need, h⟩ := h
    refine .some ⟨need, fun fuel hfuel =>
      searchFrom_succ (h fuel hfuel) fun other hother => ?_⟩ hrest
    cases hother
    exact hbehind _ rfl

/-- Where no match begins at the end of another one, a search that deletes them finds the same
matches as one that edits nothing. -/
theorem Sweeps.eq_deletions {position : Nat} {replacements : List Replacement}
    (h : matcher.Sweeps body position replacements)
    (hwindows : ∀ replacement ∈ replacements, replacement.window = []) :
    ∀ {found : List (Match CodeCapture)}, matcher.Finds body position found →
      Match.Spaced found → replacements = found.map Match.deletion := by
  induction h with
  | none h =>
    intro found hfinds _
    cases hfinds with
    | none => rfl
    | some hother => cases h.unique hother
  | @some position first rest h _ ih =>
    intro found hfinds hchain
    obtain ⟨hfirst, hrest⟩ := List.forall_mem_cons.mp hwindows
    cases hfinds with
    | none hother => cases h.unique hother
    | @some _ head others hother hothers =>
      cases h.unique hother
      obtain ⟨hapart, hchain⟩ := List.isChain_cons.mp hchain
      have hdeletion : first = first.found.deletion := by
        rw [Match.deletion, ← hfirst]
      have hle := (covers_of_converges h).2.2.le
      -- The search goes on one place behind the match, and nothing is found at that place.
      have hnext : matcher.Finds body (first.found.stop + first.gap) others := by
        rw [Replacement.gap, if_pos hfirst]
        rcases Nat.lt_or_eq_of_le hle with hlt | heq
        · rw [Nat.max_eq_left hlt] at hothers
          exact hothers.succ fun second hsecond => (hapart second hsecond).symm
        · rw [heq, Nat.max_eq_right (Nat.le_succ _)] at hothers
          exact hothers
      rw [List.map_cons, ← ih hrest hnext hchain, ← hdeletion]

/-- Of two matches that touch, a search never deletes both. -/
theorem Sweeps.isChain {position : Nat} {replacements : List Replacement}
    (h : matcher.Sweeps body position replacements)
    (hwindows : ∀ replacement ∈ replacements, replacement.window = []) :
    replacements.IsChain fun first second => first.found.stop < second.found.start := by
  induction h with
  | none => exact .nil
  | @some position first rest _ hrest ih =>
    obtain ⟨hfirst, hwindows⟩ := List.forall_mem_cons.mp hwindows
    refine List.isChain_cons.mpr ⟨fun second hsecond => ?_, ih hwindows⟩
    cases hrest with
    | none => cases hsecond
    | some h =>
      cases hsecond
      have hlow := (covers_of_converges h).1
      rw [Replacement.gap, if_pos hfirst] at hlow
      exact hlow

/-- All the matches are deleted exactly if no two of them touch. -/
theorem Sweeps.deletions_iff {position : Nat} {replacements : List Replacement}
    (h : matcher.Sweeps body position replacements)
    (hwindows : ∀ replacement ∈ replacements, replacement.window = [])
    {found : List (Match CodeCapture)} (hfinds : matcher.Finds body position found) :
    replacements = found.map Match.deletion ↔ Match.Spaced found := by
  constructor
  · rintro rfl
    exact ((List.isChain_map Match.deletion).mp (h.isChain hwindows)).imp fun _ _ => Nat.ne_of_lt
  · exact h.eq_deletions hwindows hfinds

end Matcher

/-! ## Fixed opcodes -/

namespace CodePattern

variable {value : UInt8} {body : List Instruction} {position : Nat}

/-- A search for a fixed opcode passes over other instructions only. -/
theorem opcode_ne_of_searchFrom {fuel : Nat} {answer : Option (Match CodeCapture)}
    (h : Matcher.searchFrom { pattern := opcode value none none, strategy := .longest } (fuel + 3)
      body.toArray position = .ok answer) {place : Nat} {instruction : Instruction}
    (hlow : position ≤ place) (hhigh : place < answer.elim body.length (·.start))
    (hitem : body[place]? = some instruction) : instruction.opcode ≠ value :=
  ne_of_matchAt_opcode ((Matcher.searchFrom_first h).1 place hlow hhigh)
    ((List.getElem?_toArray ..).trans hitem)

/-- A body without the matches of a fixed opcode has no instruction with that opcode. -/
theorem opcode_ne_of_deletions {found : List (Match CodeCapture)}
    (h : Matcher.Finds { pattern := opcode value none none, strategy := .longest } body.toArray
      position found) :
    ∀ {base : Nat}, (∀ (place : Nat) (instruction : Instruction), base ≤ place → place < position →
        body[place]? = some instruction → instruction.opcode ≠ value) →
      ∀ instruction ∈ substitute body base (found.map Match.deletion),
        instruction.opcode ≠ value := by
  induction h with
  | @none position h =>
    intro base hbefore instruction hmem
    obtain ⟨need, h⟩ := h
    obtain ⟨index, hindex⟩ := List.getElem?_of_mem hmem
    rw [List.map_nil, substitute, List.getElem?_drop] at hindex
    obtain ⟨hinside, -⟩ := List.getElem?_eq_some_iff.mp hindex
    rcases Nat.lt_or_ge (base + index) position with hlt | hge
    · exact hbefore _ instruction (Nat.le_add_right _ _) hlt hindex
    · exact opcode_ne_of_searchFrom (h (need + 3) (by omega)) hge hinside hindex
  | @some position first rest h _ ih =>
    intro base hbefore instruction hmem
    obtain ⟨need, h⟩ := h
    have hsearch := h (need + 3) (by omega)
    have hstop := stop_of_matchAt_opcode ((Matcher.searchFrom_first hsearch).2 first rfl)
    rw [List.map_cons, substitute_deletion, List.mem_append] at hmem
    rcases hmem with hfront | hback
    · obtain ⟨index, hindex⟩ := List.getElem?_of_mem hfront
      rw [List.getElem?_take, Option.ite_none_right_eq_some, List.getElem?_drop] at hindex
      obtain ⟨hshort, hindex⟩ := hindex
      have hhigh : base + index < first.start := by omega
      rcases Nat.lt_or_ge (base + index) position with hlt | hge
      · exact hbefore _ instruction (Nat.le_add_right _ _) hlt hindex
      · exact opcode_ne_of_searchFrom hsearch hge hhigh hindex
    · -- The match covers the one instruction in front of the rest.
      refine ih (fun place other hlow hhigh _ => ?_) instruction hback
      omega

end CodePattern

/-! ## Graphs -/

/-- The replacements in a block of which the matches are `found`, where all windows are empty. -/
structure BasicBlock.Deletions (leaf : BasicBlock) (pattern : CodePattern)
    (found : List (Match CodeCapture)) (replacements : List Replacement) : Prop where
  sweeps : Matcher.Sweeps { pattern, strategy := .longest } leaf.instructions.toArray 0 replacements
  finds : Converges (fun fuel => Matcher.findAll { pattern, strategy := .longest } fuel
    leaf.instructions.toArray false) (found.map .ok)
  all_iff : replacements = found.map Match.deletion ↔ Match.Spaced found
  stripped : ∀ opcode, pattern = CodePattern.opcode opcode none none → Match.Spaced found →
    ∀ instruction ∈ (leaf.substitute replacements).instructions, instruction.opcode ≠ opcode

/-- A search whose editor deletes the matches deletes all of them, and nothing else, from exactly
those blocks in which no match begins at the end of another one.  Of such a block nothing is left
that has the opcode that was searched for. -/
theorem Graph.edit_deletes {graph : Graph} {pattern : CodePattern} {editor : Editor σ}
    (hfinishes : ∀ leaf ∈ graph.leaves, pattern.Finishes leaf.instructions.toArray)
    (heditor : editor.Deletes { pattern, strategy := .longest }) (state : σ) :
    ∃ replacements result,
      List.Forall₂ (fun leaf replacements => ∃ found, leaf.Deletions pattern found replacements)
        graph.leaves replacements ∧
      graph.Edited editor state replacements result ∧
      Converges (fun fuel => graph.edit fuel pattern editor state) result := by
  obtain ⟨replacements, result, hsweeps, hedited, hconverges⟩ :=
    edit_converges heditor.splices (fun _ hwindow => hwindow) hfinishes state
  have hleaves := (List.forall₂_and_left _ _).mpr ⟨hfinishes, hsweeps⟩
  refine ⟨replacements, result, hleaves.imp fun leaf replacements h => ?_, hedited, hconverges⟩
  obtain ⟨hleaf, hsweeps, hwindows⟩ := h
  obtain ⟨found, hfinds⟩ : ∃ found, Matcher.Finds { pattern, strategy := .longest }
      leaf.instructions.toArray 0 found := Matcher.exists_finds hleaf (Nat.lt_succ_self _)
  have hall := hsweeps.deletions_iff hwindows hfinds
  refine ⟨found, hsweeps, hfinds.findAll, hall, ?_⟩
  rintro opcode rfl hspaced instruction hinstruction
  rw [hall.mpr hspaced] at hinstruction
  exact CodePattern.opcode_ne_of_deletions hfinds
    (fun _ _ _ hplace => absurd hplace (Nat.not_lt_zero _)) instruction hinstruction

/-- Deletes what was matched. -/
def Editor.deleting : Editor Unit := fun block found metadata state =>
  { block := block.splice found.start found.stop []
    metadata
    state
    control := .ok .proceed }

theorem Editor.deleting_deletes (matcher : Matcher Instruction CodeCapture) :
    deleting.Deletes matcher where
  proceeds _ _ _ _ _ := rfl
  deleted _ _ _ _ _ := rfl

/-- Both instructions of `idling` that do nothing are matches, but only one of them is handed over
and deleted. -/
theorem idling_left :
    Converges (fun fuel => Matcher.findAll
        { pattern := CodePattern.opcode 9 none none, strategy := .longest } fuel
        (#[.simple 9, .simple 9, { opcode := 100, operand := .constant (.int 1) }]) false)
      [.ok { start := 0, stop := 1, captures := [] },
        .ok { start := 1, stop := 2, captures := [] }] ∧
    Converges (fun fuel =>
        let result := idling.edit fuel (CodePattern.opcode 9 none none) Editor.deleting ()
        (result.1.leaves.map (·.instructions), result.2.matchCount))
      ([[.simple 9, { opcode := 100, operand := .constant (.int 1) }]], 1) := by
  constructor
  · refine ⟨8, fun fuel hfuel => ?_⟩
    obtain ⟨fuel, rfl⟩ : ∃ less, fuel = less + 8 := ⟨fuel - 8, by omega⟩
    rfl
  · refine ⟨8, fun fuel hfuel => ?_⟩
    obtain ⟨fuel, rfl⟩ : ∃ less, fuel = less + 8 := ⟨fuel - 8, by omega⟩
    rfl

theorem idling_deletes : ∃ replacements result,
    List.Forall₂ (fun leaf replacements => ∃ found,
        leaf.Deletions (CodePattern.opcode 9 none none) found replacements)
      idling.leaves replacements ∧
    idling.Edited Editor.deleting () replacements result ∧
    Converges (fun fuel => idling.edit fuel (CodePattern.opcode 9 none none) Editor.deleting ())
      result :=
  Graph.edit_deletes (fun _ _ => CodePattern.opcode_finishes 9 _) (Editor.deleting_deletes _) ()

end StackCode
