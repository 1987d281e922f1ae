import Mathlib.Data.List.Forall2
import StackCode.Code.Search
import StackCode.Proofs.Pattern.Finite
import StackCode.Proofs.Pattern.Shift

/-!
Searches that put something in place of what they match.

Behind an edited window the rest of a body stands as it stood before, only further on or further
back.  A search therefore finds there what it would have found in the original body, and all its
matches can be told beforehand.
-/

namespace StackCode

variable {σ : Type}

/-! ## Windows -/

/-- The match in a body that has changed from `before` to `after` instructions in front of it. -/
def Match.moved {ν : Type} (before after : Nat) (found : Match ν) : Match ν :=
  { found with start := found.start + after - before, stop := found.stop + after - before }

/-- A match, and what stands in place of the instructions that it covers. -/
structure Replacement where
  found : Match CodeCapture
  window : List Instruction

/-- A body from `base` on, with each match replaced by its window. -/
def substitute (body : List Instruction) : (base : Nat) → List Replacement → List Instruction
  | base, [] => body.drop base
  | base, ⟨found, window⟩ :: rest =>
    (body.drop base).take (found.start - base) ++ window ++ substitute body found.stop rest

/-- The block with each match replaced by its window. -/
def BasicBlock.substitute (block : BasicBlock) (replacements : List Replacement) : BasicBlock :=
  { block with instructions := StackCode.substitute block.instructions 0 replacements }

/-! ## Editors -/

namespace Editor

/-- Hands matches to an editor, one after the other.  They were found in a body of `size`
instructions, and each is moved as the body has grown or shrunk since. -/
def handOver (editor : Editor σ) (size : Nat) :
    List (Match CodeCapture) → BasicBlock → CodeSearch σ → BasicBlock × CodeSearch σ
  | [], block, search => (block, search)
  | found :: rest, block, search =>
    let edit := editor block (found.moved size block.instructions.length) search.metadata
      search.state
    handOver editor size rest edit.block
      { search with
        metadata := edit.metadata
        state := edit.state
        matchCount := search.matchCount + 1 }

/-- Hands the matches in each block to an editor, block after block. -/
def handOverAll (editor : Editor σ) :
    List (BasicBlock × List (Match CodeCapture)) → CodeSearch σ → List BasicBlock × CodeSearch σ
  | [], search => ([], search)
  | (block, found) :: rest, search =>
    let (block, search) := handOver editor block.instructions.length found block search
    let (blocks, search) := handOverAll editor rest search
    (block :: blocks, search)

/-- The editor goes on, and changes nothing of a block but the window that was matched.  What it
puts in place of so many instructions `fits`. -/
def Splices (editor : Editor σ) (matcher : Matcher Instruction CodeCapture)
    (fits : (size : Nat) → List Instruction → Prop) : Prop :=
  ∀ (block : BasicBlock) (found : Match CodeCapture) (metadata : Metadata) (state : σ),
    matcher.Gives block.instructions.toArray found →
      (editor block found metadata state).control = .ok .proceed ∧
      ∃ window, fits found.size window ∧
        (editor block found metadata state).block = block.splice found.start found.stop window

theorem handOver_status (editor : Editor σ) (size : Nat) (found : List (Match CodeCapture)) :
    ∀ (block : BasicBlock) (search : CodeSearch σ),
      (editor.handOver size found block search).2.status = search.status := by
  induction found with
  | nil => exact fun _ _ => rfl
  | cons first rest ih =>
    intro block search
    rw [handOver, ih]

theorem handOver_matches (editor : Editor σ) (size : Nat) (found : List (Match CodeCapture)) :
    ∀ (block : BasicBlock) (search : CodeSearch σ),
      (editor.handOver size found block search).2.matchCount = search.matchCount + found.length := by
  induction found with
  | nil => exact fun _ _ => rfl
  | cons first rest ih =>
    intro block search
    rw [handOver, ih, List.length_cons]
    exact Nat.add_right_comm _ _ _

end Editor

/-! ## Bodies -/

/-- How far behind the window the search goes on.  Behind an empty window one instruction is
passed over. -/
def Replacement.gap (replacement : Replacement) : Nat :=
  if replacement.window = [] then 1 else 0

/-- Instructions stand where the match covers none. -/
def Replacement.inserts (replacement : Replacement) : Bool :=
  replacement.found.isEmpty && !replacement.window.isEmpty

/-- The replacements that a search makes in a body from `position` on. -/
inductive Matcher.Sweeps (matcher : Matcher Instruction CodeCapture) (body : Array Instruction) :
    Nat → List Replacement → Prop where
  | none {position : Nat}
    (h : Converges (fun fuel => matcher.searchFrom fuel body position) (.ok none)) :
    Sweeps matcher body position []
  | some {position : Nat} {first : Replacement} {rest : List Replacement}
    (h : Converges (fun fuel => matcher.searchFrom fuel body position) (.ok (some first.found)))
    (hrest : Sweeps matcher body (first.found.stop + first.gap) rest) :
    Sweeps matcher body position (first :: rest)

/-- The first replacements that a search makes in a body from `position` on, up to where it stands
at `last`. -/
inductive Matcher.Sweeping (matcher : Matcher Instruction CodeCapture) (body : Array Instruction) :
    Nat → List Replacement → Nat → Prop where
  | here {position : Nat} : Sweeping matcher body position [] position
  | some {position last : Nat} {first : Replacement} {rest : List Replacement}
    (h : Converges (fun fuel => matcher.searchFrom fuel body position) (.ok (some first.found)))
    (hrest : Sweeping matcher body (first.found.stop + first.gap) rest last) :
    Sweeping matcher body position (first :: rest) last

theorem Matcher.Sweeps.sweeping {matcher : Matcher Instruction CodeCapture}
    {body : Array Instruction} {position : Nat} {replacements : List Replacement}
    (h : matcher.Sweeps body position replacements) :
    ∃ last, matcher.Sweeping body position replacements last := by
  induction h with
  | @none position => exact ⟨position, .here⟩
  | some h _ ih =>
    obtain ⟨last, hrest⟩ := ih
    exact ⟨last, .some h hrest⟩

/-- A search gets on by one instruction at least, unless it inserts. -/
theorem Replacement.lt_stop_add_gap (replacement : Replacement)
    (hle : replacement.found.start ≤ replacement.found.stop)
    (h : replacement.inserts = false) :
    replacement.found.start < replacement.found.stop + replacement.gap := by
  rw [gap]
  split
  · omega
  · rename_i hwindow
    have hstop : replacement.found.stop ≠ replacement.found.start := by
      intro hempty
      rw [inserts, Match.isEmpty, decide_eq_true hempty, Bool.true_and, Bool.not_eq_false',
        List.isEmpty_iff] at h
      exact hwindow h
    omega

/-- A search makes at most one replacement for each instruction of the body, apart from those that
insert. -/
theorem Matcher.Sweeping.length_le {matcher : Matcher Instruction CodeCapture}
    {body : Array Instruction} {position last : Nat} {replacements : List Replacement}
    (h : matcher.Sweeping body position replacements last) :
    replacements.length ≤ body.size - position + replacements.countP (·.inserts) := by
  induction h with
  | here => exact Nat.zero_le _
  | @some position last first rest h _ ih =>
    obtain ⟨hlow, hhigh, hcovers⟩ := covers_of_converges h
    have hle := hcovers.le
    rw [List.length_cons, List.countP_cons]
    cases hinserts : first.inserts with
    | true =>
      rw [if_pos rfl]
      omega
    | false =>
      have hnext := first.lt_stop_add_gap hle hinserts
      rw [if_neg Bool.false_ne_true]
      omega

/-- Behind what was edited, a search finds what it finds in the original body. -/
theorem Matcher.searchFrom_moved (matcher : Matcher Instruction CodeCapture) (fuel : Nat)
    (done : List Instruction) {body : List Instruction} {base : Nat} (hbase : base ≤ body.length)
    (gap : Nat) :
    matcher.searchFrom fuel (done ++ body.drop base).toArray (done.length + gap) =
      (matcher.searchFrom fuel body.toArray (base + gap)).map
        (Option.map (Match.moved body.length (done ++ body.drop base).length)) := by
  have hfront :=
    matcher.searchFrom_append fuel (body.take base).toArray (body.drop base).toArray gap
  have hdone := matcher.searchFrom_append fuel done.toArray (body.drop base).toArray gap
  simp only [List.append_toArray, List.take_append_drop, List.size_toArray, List.length_take,
    Nat.min_eq_left hbase] at hfront hdone
  rw [hfront, hdone]
  cases matcher.searchFrom fuel (body.drop base).toArray gap with
  | error halt => rfl
  | ok answer =>
    cases answer with
    | none => rfl
    | some found =>
      simp only [Match.shiftAnswer, Except.map, Option.map_some, Match.shift, Match.moved,
        List.length_append, List.length_drop, Except.ok.injEq, Option.some.injEq, Match.mk.injEq,
        and_true]
      omega

/-- What a body holds up to the end of a replacement, behind `done` and from `base` on. -/
def Replacement.extend (replacement : Replacement) (body done : List Instruction) (base : Nat) :
    List Instruction :=
  done ++ (body.drop base).take (replacement.found.start - base) ++ replacement.window

section Step

variable {body done : List Instruction} {base : Nat} (first : Replacement)

theorem length_extend (hbase : base ≤ first.found.start)
    (hstart : first.found.start ≤ body.length) :
    (first.extend body done base).length =
      done.length + (first.found.start - base) + first.window.length := by
  rw [Replacement.extend, List.length_append, List.length_append, List.length_take,
    List.length_drop]
  omega

theorem length_of_edited {block : BasicBlock}
    (hblock : block.instructions = done ++ body.drop base) :
    block.instructions.length = done.length + (body.length - base) := by
  rw [hblock, List.length_append, List.length_drop]

/-- A match is as long where it was moved to. -/
theorem size_moved {block : BasicBlock} (hblock : block.instructions = done ++ body.drop base)
    {found : Match CodeCapture} (hbase : base ≤ found.start)
    (hcovers : found.Covers body.toArray found.start) :
    (found.moved body.length block.instructions.length).size = found.size := by
  obtain ⟨-, hle, hstop⟩ := hcovers
  rw [List.size_toArray] at hstop
  have hlength := length_of_edited hblock
  simp only [Match.moved, Match.size]
  omega

/-- A body in which a match was moved holds the same behind the window as the original one. -/
theorem splice_moved {block : BasicBlock} (hblock : block.instructions = done ++ body.drop base)
    (hbase : base ≤ first.found.start)
    (hcovers : first.found.Covers body.toArray first.found.start) :
    block.splice (first.found.moved body.length block.instructions.length).start
        (first.found.moved body.length block.instructions.length).stop first.window =
      { block with
        instructions := first.extend body done base ++ body.drop first.found.stop } := by
  obtain ⟨-, hle, hstop⟩ := hcovers
  rw [List.size_toArray] at hstop
  have hlength := length_of_edited hblock
  have hstartMoved : first.found.start + block.instructions.length - body.length =
      done.length + (first.found.start - base) := by omega
  have hstopMoved : first.found.stop + block.instructions.length - body.length =
      done.length + (first.found.stop - base) := by omega
  have htail : (body.drop base).drop (first.found.stop - base) = body.drop first.found.stop := by
    rw [List.drop_drop]
    congr 1
    omega
  rw [BasicBlock.splice, Match.moved]
  simp only [hstartMoved, hstopMoved, Replacement.extend]
  rw [hblock, List.take_length_add_append, List.drop_length_add_append, htail]

/-- The search goes on behind the window, wherever the body has moved to. -/
theorem resumeAt_moved {block edited : BasicBlock}
    (hblock : block.instructions = done ++ body.drop base)
    (hedited : edited.instructions = first.extend body done base ++ body.drop first.found.stop)
    (hbase : base ≤ first.found.start)
    (hcovers : first.found.Covers body.toArray first.found.start) :
    CodeSearch.resumeAt (first.found.moved body.length block.instructions.length)
        block.instructions.length edited.instructions.length =
      (first.extend body done base).length + first.gap := by
  obtain ⟨-, hle, hstop⟩ := hcovers
  rw [List.size_toArray] at hstop
  have hbefore := length_of_edited hblock
  have hafter : edited.instructions.length =
      (first.extend body done base).length + (body.length - first.found.stop) := by
    rw [hedited, List.length_append, List.length_drop]
  have hextend : (first.extend body done base).length = _ :=
    length_extend first hbase (Nat.le_trans hle hstop)
  rw [CodeSearch.resumeAt, Match.moved, Replacement.gap]
  simp only
  split
  · rename_i hwindow
    rw [hwindow, List.length_nil] at hextend
    omega
  · rename_i hwindow
    have := List.length_pos_iff.mpr hwindow
    omega

/-- Instructions that are put in place of a match change the length of a block by as much as they
differ from it in number. -/
theorem length_edited {block : BasicBlock} (hblock : block.instructions = done ++ body.drop base)
    (hbase : base ≤ first.found.start)
    (hcovers : first.found.Covers body.toArray first.found.start) :
    (first.extend body done base ++ body.drop first.found.stop).length + first.found.size =
      block.instructions.length + first.window.length := by
  obtain ⟨-, hle, hstop⟩ := hcovers
  rw [List.size_toArray] at hstop
  rw [List.length_append, length_extend first hbase (Nat.le_trans hle hstop), hblock,
    List.length_append, List.length_drop, List.length_drop, Match.size]
  omega

/-- The editor is handed a match, and leaves instructions that fit in place of it and all else as it
is.  So far the search stood in `block`, where `done` was in front of the rest of the body. -/
structure Editor.Puts (editor : Editor σ) (fits : Nat → List Instruction → Prop)
    (body : List Instruction) (base : Nat) (done : List Instruction) (first : Replacement)
    (block : BasicBlock) (search : CodeSearch σ) (edited : BasicBlock) (later : CodeSearch σ) :
    Prop where
  window : fits first.found.size first.window
  replaced : edited =
    { block with instructions := first.extend body done base ++ body.drop first.found.stop }
  running : later.status = .running
  hands : ∀ rest, editor.handOver body.length (first.found :: rest) block search =
    editor.handOver body.length rest edited later

/-- One match: the editor changes the window and nothing else, and the search goes on behind it. -/
theorem CodeSearch.scan_step {matcher : Matcher Instruction CodeCapture} {editor : Editor σ}
    {fits : Nat → List Instruction → Prop} (heditor : editor.Splices matcher fits)
    {block : BasicBlock} (hblock : block.instructions = done ++ body.drop base)
    (hbody : base ≤ body.length) {gap : Nat} {found : Match CodeCapture}
    (hfound : Converges (fun fuel => matcher.searchFrom fuel body.toArray (base + gap))
      (.ok (some found)))
    (search : CodeSearch σ) (hrunning : search.status = .running) :
    ∃ (first : Replacement) (edited : BasicBlock) (later : CodeSearch σ), first.found = found ∧
      editor.Puts fits body base done first block search edited later ∧
      ∀ fuel, matcher.searchFrom fuel body.toArray (base + gap) = .ok (some found) →
        scan matcher editor (fuel + 1) (done.length + gap) block search =
          scan matcher editor fuel ((first.extend body done base).length + first.gap) edited
            later := by
  obtain ⟨hlow, -, hcovers⟩ := Matcher.covers_of_converges hfound
  have hbase : base ≤ found.start := Nat.le_of_add_right_le hlow
  let moved := found.moved body.length block.instructions.length
  have hmoved : ∀ fuel, matcher.searchFrom fuel body.toArray (base + gap) = .ok (some found) →
      matcher.searchFrom fuel block.instructions.toArray (done.length + gap) =
        .ok (some moved) := by
    intro fuel hsearch
    have := matcher.searchFrom_moved fuel done hbody gap
    rw [hsearch, ← hblock] at this
    exact this
  have hgives : matcher.Gives block.instructions.toArray moved := by
    obtain ⟨need, hfound⟩ := hfound
    exact Matcher.gives_of_converges ⟨need, fun fuel hfuel => hmoved fuel (hfound fuel hfuel)⟩
  have hsize : moved.size = found.size := size_moved hblock hbase hcovers
  obtain ⟨hproceeds, window, hfits, hblockEdited⟩ :=
    heditor block moved search.metadata search.state hgives
  rw [hsize] at hfits
  let edit := editor block moved search.metadata search.state
  let later : CodeSearch σ :=
    { metadata := edit.metadata, state := edit.state, matchCount := search.matchCount + 1,
      status := .running }
  let first : Replacement := { found, window }
  have hedited : edit.block = { block with
      instructions := first.extend body done base ++ body.drop found.stop } :=
    hblockEdited.trans (splice_moved first hblock hbase hcovers)
  refine ⟨first, edit.block, later, rfl, ⟨hfits, hedited, rfl, fun rest => ?_⟩,
    fun fuel hsearch => ?_⟩
  · have hlater : later = { search with
        metadata := edit.metadata, state := edit.state, matchCount := search.matchCount + 1 } := by
      simp only [later, hrunning]
    rw [Editor.handOver, hlater]
  · have hsearch := hmoved fuel hsearch
    have hresume := resumeAt_moved first hblock (congrArg BasicBlock.instructions hedited) hbase
      hcovers
    rw [← hresume, scan, hsearch]
    simp only [hproceeds, if_true]
    rfl

end Step

end StackCode
