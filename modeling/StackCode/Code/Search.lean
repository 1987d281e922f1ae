import StackCode.Code.Captured
import StackCode.Graph.Basic
import StackCode.Pattern.Matcher

/-!
Searching a graph.  A pattern is matched against the bodies of the basic blocks, depth first, and
each match is handed to an editor, which may change the block and the metadata of the code unit.
Inside a block the longest match is taken at the leftmost place, and the search goes on behind
the edited window.
-/

namespace StackCode

/-- Whether a search goes on. -/
inductive Control where
  | proceed
  | stop
  deriving DecidableEq, Repr

/-- What an editor leaves behind.  Changes made before an error are kept. -/
structure Edit (σ : Type) where
  block : BasicBlock
  metadata : Metadata
  state : σ
  control : Except Error Control

/-- Handles one match in a block. -/
abbrev Editor (σ : Type) := BasicBlock → Match CodeCapture → Metadata → σ → Edit σ

/-- Whether a search is still going on. -/
inductive SearchStatus where
  | running
  /-- The editor asked to stop. -/
  | stopped
  | halted (halt : Halt)
  deriving DecidableEq, Repr

/-- Where a search stands. -/
structure CodeSearch (σ : Type) where
  metadata : Metadata
  state : σ
  /-- The number of matches handed to the editor. -/
  matchCount : Nat
  status : SearchStatus

namespace CodeSearch

variable {σ : Type}

/-- Where the search goes on behind a match, once the editor has changed the number of
instructions from `before` to `after`. -/
def resumeAt (found : Match CodeCapture) (before after : Nat) : Nat :=
  max (found.stop + after - before) (found.start + 1)

/-- Searches the body of a block from `position` on. -/
def scan (matcher : Matcher Instruction CodeCapture) (editor : Editor σ) :
    (fuel position : Nat) → BasicBlock → CodeSearch σ → BasicBlock × CodeSearch σ
  | 0, _, block, search => (block, { search with status := .halted .outOfFuel })
  | fuel + 1, position, block, search =>
    match matcher.searchFrom fuel block.instructions.toArray position with
    | .error halt => (block, { search with status := .halted halt })
    | .ok none => (block, search)
    | .ok (some found) =>
      let edit := editor block found search.metadata search.state
      let status :=
        match edit.control with
        | .ok .proceed => .running
        | .ok .stop => .stopped
        | .error error => .halted (.error error)
      let search :=
        { metadata := edit.metadata
          state := edit.state
          matchCount := search.matchCount + 1
          status }
      if status = .running then
        let before := block.instructions.length
        let after := edit.block.instructions.length
        scan matcher editor fuel (resumeAt found before after) edit.block search
      else (edit.block, search)

mutual

/-- Searches the basic blocks of `block`, as long as the search is running. -/
def walk (matcher : Matcher Instruction CodeCapture) (editor : Editor σ) (fuel : Nat)
    (search : CodeSearch σ) : Block → Block × CodeSearch σ
  | .basic block =>
    if search.status = .running then
      let (block, search) := scan matcher editor fuel 0 block search
      (.basic block, search)
    else (.basic block, search)
  | .group id children =>
    let (children, search) := walkAll matcher editor fuel search children
    (.group id children, search)

def walkAll (matcher : Matcher Instruction CodeCapture) (editor : Editor σ) (fuel : Nat)
    (search : CodeSearch σ) : List (Nat × Block) → List (Nat × Block) × CodeSearch σ
  | [] => ([], search)
  | (key, child) :: rest =>
    let (child, search) := walk matcher editor fuel search child
    let (rest, search) := walkAll matcher editor fuel search rest
    ((key, child) :: rest, search)

end

end CodeSearch

/-- Searches a graph for a pattern and hands every match to the editor. -/
def Graph.edit {σ : Type} (graph : Graph) (fuel : Nat) (pattern : CodePattern)
    (editor : Editor σ) (state : σ) : Graph × CodeSearch σ :=
  let search := { metadata := graph.metadata, state, matchCount := 0, status := .running }
  let (blocks, search) :=
    CodeSearch.walkAll { pattern, strategy := .longest } editor fuel search graph.blocks
  ({ graph with blocks, metadata := search.metadata }, search)

end StackCode
