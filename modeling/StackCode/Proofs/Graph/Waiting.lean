import StackCode.Proofs.Graph.Partition

/-!
Waiting for a fallthrough.

A scan marks two of its blocks: the one that is open, and the closed one that waits for the block
behind it.  A change of line, a branch target, a branch and an instruction that ends execution each
set or clear a mark, in any order.  Whatever the instructions are, a block is never open while
another one waits, so that no cut fails, and each block gets a number of its own.  Code whose blocks
have words as numbers then fails to become a graph only over an instruction that cannot be read or a
branch that lands nowhere.
-/

namespace StackCode
namespace Graph

open Outcome

/-- One more item makes at most one piece more. -/
theorem Grown.length {pieces grown : List Piece} {item : Item} {line : Option UInt32}
    (h : Grown pieces item line grown) :
    pieces.length ≤ grown.length ∧ grown.length ≤ pieces.length + 1 := by
  rcases h with ⟨front, piece, rfl, -, rfl⟩ | rfl
  · simp
  · simp

namespace Scan

variable {isa : InstructionSet} {metadata : Metadata} {granularity : Granularity}
  {decoded front : List Decoded} {scan next : Scan} {d : Decoded}

/-! ### Marks -/

/-- No block is open while another one waits for the block behind it. -/
def Apart (scan : Scan) : Prop := scan.current = none ∨ scan.waiting = none

/-- How a scan stands between two instructions: its marks are apart, and the open block is not
empty. -/
structure Steady (scan : Scan) : Prop where
  apart : scan.Apart
  filled : ∀ draft, scan.current = some draft → draft.body ≠ #[]

/-- How a scan takes the next instruction: neither cut in front of it fails, the marks are apart
behind each of them, and no block waits once the block of the instruction is open. -/
def StaysApart (granularity : Granularity) (scan : Scan) (d : Decoded) : Prop :=
  ∃ lined entered, scan.enterLine d.line = .ok lined ∧ lined.Apart ∧
    lined.enterTarget (d.isTarget && granularity.splitAtTargets) = .ok entered ∧ entered.Apart ∧
    entered.openBlock.2.waiting = none

theorem Sound.apart (h : scan.Sound) : scan.Apart := by
  cases hcurrent : scan.current with
  | none => exact .inl hcurrent
  | some draft => exact .inr (h.idle (by rw [hcurrent]; rfl))

theorem Sound.staysApart (h : scan.Sound) (granularity : Granularity) (d : Decoded) :
    scan.StaysApart granularity d := by
  obtain ⟨lined, hline, hlined, -⟩ := h.enterLine d.line
  obtain ⟨entered, htarget, hentered, -⟩ :=
    hlined.enterTarget (d.isTarget && granularity.splitAtTargets)
  obtain ⟨-, -, -, -, -, hwaiting, -⟩ := hentered.openBlock rfl
  exact ⟨lined, entered, hline, hlined.apart, htarget, hentered.apart, hwaiting⟩

/-- The open block has no branch yet, so that what fills it are plain instructions. -/
theorem Sound.steady (h : scan.Sound) (hlinked : scan.Linked isa) : scan.Steady := by
  refine ⟨h.apart, fun draft hcurrent hempty => ?_⟩
  have hfilled : draft.items ≠ [] := hlinked.filled draft (by rw [recent, hcurrent]; rfl)
  exact hfilled (by simp [Draft.items, hempty, h.branch draft hcurrent])

/-! ### Numbers -/

/-- What a scan keeps, wherever it cuts: its links, at most one block for each instruction, and
labels in the blocks that there are. -/
structure Kept (isa : InstructionSet) (front : List Decoded) (scan : Scan) : Prop where
  sound : scan.Sound
  linked : scan.Linked isa
  count : scan.pieces.length ≤ front.length
  labels : ∀ (offset : Nat) (label : Label), scan.labels[offset]? = some label →
    label.block ≤ scan.pieces.length

theorem kept_start (isa : InstructionSet) : Kept isa [] start :=
  ⟨sound_start, linked_start isa, Nat.le_refl 0, by simp [start]⟩

/-- Drafts that are numbered from 1 have no greater number than there are drafts. -/
theorem id_le_of_ids {drafts : List Draft}
    (h : drafts.map (·.id) = List.range' 1 drafts.length) :
    ∀ draft ∈ drafts, draft.id ≤ drafts.length := by
  intro draft hdraft
  have hid : draft.id ∈ List.range' 1 drafts.length := by
    rw [← h]
    exact List.mem_map_of_mem hdraft
  rw [List.mem_range'_1] at hid
  omega

theorem pieces_length (scan : Scan) : scan.pieces.length = scan.recent.reverse.length := by
  rw [pieces, List.length_map]

theorem Kept.step (h : Kept isa front scan)
    (hstep : scan.step isa metadata granularity d = .ok next) : Kept isa (front ++ [d]) next := by
  obtain ⟨hsound, -, ⟨item, -, hgrown⟩, label, hlabels, hends⟩ := h.sound.step hstep
  obtain ⟨hgrows, hbound⟩ := hgrown.length
  refine ⟨hsound, h.linked.step h.sound hstep, ?_, fun offset found hfound => ?_⟩
  · rw [List.length_append, List.length_singleton]
    exact Nat.le_trans hbound (Nat.succ_le_succ h.count)
  · rw [hlabels, Std.HashMap.getElem?_insert] at hfound
    split at hfound
    · -- The label of the instruction itself is in the last block.
      obtain rfl : label = found := Option.some.inj hfound
      obtain ⟨others, piece, hpieces, hid, -⟩ := hends
      have hpiece : piece ∈ next.pieces := by simp [hpieces]
      obtain ⟨draft, hdraft, rfl⟩ := List.mem_map.mp hpiece
      have hids : next.recent.reverse.map (·.id) = List.range' 1 next.recent.reverse.length := by
        rw [ids_of_numbered hsound.numbered, List.length_reverse]
      rw [← hid, pieces_length]
      exact id_le_of_ids hids draft hdraft
    · exact Nat.le_trans (h.labels offset found hfound) hgrows

theorem Kept.foldlM (h : decoded.foldlM (Scan.step isa metadata granularity) start = .ok scan) :
    Kept isa decoded scan :=
  foldlM_keeps (Scan.step isa metadata granularity) (Kept isa)
    (fun _ _ _ _ hkept hstep => hkept.step hstep) decoded [] start scan (kept_start isa) h

theorem Kept.drafts_length (h : Kept isa decoded scan) :
    scan.drafts.length ≤ max 1 decoded.length := by
  have hcount := h.count
  rw [pieces_length] at hcount
  rcases drafts_eq scan with hdrafts | ⟨-, draft, hdrafts, -⟩
  · rw [hdrafts]
    exact Nat.le_trans hcount (Nat.le_max_right 1 decoded.length)
  · rw [hdrafts]
    exact Nat.le_max_left 1 decoded.length

end Scan

end Graph

/-! ### Words -/

/-- The label in a graph whose blocks have words as numbers: a greater number becomes the greatest
word. -/
def Label.inWords (label : Label) : Label := { label with block := min label.block 0xffffffff }

def Operand.inWords : Operand → Operand
  | label target => .label target.inWords
  | operand => operand

namespace BasicBlock

def inWords (block : BasicBlock) : BasicBlock :=
  { block with
    id := min block.id 0xffffffff
    jump := block.jump.map fun jump => { jump with operand := jump.operand.inWords }
    fallthrough := block.fallthrough.map Label.inWords }

/-- The number of the block and those that its labels name are words. -/
structure FitsWords (block : BasicBlock) : Prop where
  id : block.id ≤ 0xffffffff
  jump : ∀ jump ∈ block.jump, ∀ label, jump.label? = some label → label.block ≤ 0xffffffff
  fallthrough : ∀ label ∈ block.fallthrough, label.block ≤ 0xffffffff

end BasicBlock

theorem Label.inWords_eq {label : Label} (h : label.block ≤ 0xffffffff) :
    label.inWords = label := by
  rw [inWords, Nat.min_eq_left h]

theorem Operand.inWords_eq {operand : Operand}
    (h : ∀ label, operand.label? = some label → label.block ≤ 0xffffffff) :
    operand.inWords = operand := by
  cases operand with
  | label target => rw [inWords, Label.inWords_eq (h target rfl)]
  | _ => rfl

theorem BasicBlock.FitsWords.inWords_eq {block : BasicBlock} (h : block.FitsWords) :
    block.inWords = block := by
  obtain ⟨id, instructions, jump, fallthrough, line⟩ := block
  obtain ⟨hid, hjump, hfallthrough⟩ := h
  have hid' : min id 0xffffffff = id := Nat.min_eq_left hid
  have hjump' : jump.map (fun jump => { jump with operand := jump.operand.inWords }) = jump := by
    cases jump with
    | none => rfl
    | some jump => rw [Option.map_some, Operand.inWords_eq (hjump jump rfl)]
  have hfallthrough' : fallthrough.map Label.inWords = fallthrough := by
    cases fallthrough with
    | none => rfl
    | some label => rw [Option.map_some, Label.inWords_eq (hfallthrough label rfl)]
  rw [inWords, hid', hjump', hfallthrough']

namespace Graph

open Outcome

/-- Labels in words and a draft with a next number make a block in words. -/
theorem fitsWords_of_toBlock {labels : Std.HashMap Nat Label} {draft : Draft} {block : BasicBlock}
    (hlabels : ∀ (offset : Nat) (label : Label), labels[offset]? = some label →
      label.block ≤ 0xffffffff)
    (hid : draft.id < 0xffffffff) (h : draft.toBlock labels = .ok block) : block.FitsWords := by
  obtain ⟨jump, hsome, hnone, rfl⟩ := toBlock_eq_ok.mp h
  refine ⟨Nat.le_of_lt hid, fun held hheld label hlabel => ?_, fun label hlabel => ?_⟩
  · obtain rfl : jump = some held := hheld
    cases hbranch : draft.branch with
    | none => nomatch hnone hbranch
    | some branch =>
      obtain ⟨found, hfound, hmade⟩ := hsome branch.1 branch.2 hbranch
      cases hmade
      obtain rfl : found = label := Option.some.inj hlabel
      exact hlabels branch.2 found hfound
  · split at hlabel
    · obtain rfl : Label.start (draft.id + 1) = label := Option.some.inj hlabel
      exact hid
    · cases hlabel

/-! ### Insertion -/

/-- The block graph of decoded code, put together block by block: numbers of blocks are words, and
each block is inserted under its number, which must be free. -/
def insertDecoded (isa : InstructionSet) (metadata : Metadata) (granularity : Granularity)
    (decoded : List Decoded) : Except Error Graph := do
  let scan ← decoded.foldlM (Scan.step isa metadata granularity) Scan.start
  let blocks ← scan.drafts.mapM (Draft.toBlock scan.labels)
  blocks.foldlM (fun graph block => graph.insert (.basic block.inWords)) (.empty metadata isa 1)

/-- Blocks with ascending numbers are inserted one behind the other. -/
theorem foldlM_insert {blocks : List BasicBlock} :
    ∀ {graph : Graph}, (∀ block ∈ blocks, block.FitsWords) →
      (blocks.map (·.id)).Pairwise (· < ·) →
      (∀ entry ∈ graph.blocks, ∀ block ∈ blocks, entry.1 < block.id) →
      blocks.foldlM (fun graph block => graph.insert (.basic block.inWords)) graph =
        .ok { graph with
          blocks := graph.blocks ++ blocks.map fun block => (block.id, .basic block) } := by
  induction blocks with
  | nil =>
    intro graph _ _ _
    rw [List.map_nil, List.append_nil]
    rfl
  | cons block rest ih =>
    intro graph hfits hascends hbehind
    obtain ⟨hfit, hfits⟩ := List.forall_mem_cons.mp hfits
    rw [List.map_cons, List.pairwise_cons] at hascends
    have hless : ∀ entry ∈ graph.blocks, entry.1 < block.id :=
      fun entry hentry => hbehind entry hentry block List.mem_cons_self
    have hfree : graph.get? (Block.basic block).id = none :=
      Keyed.get?_eq_none_iff.mpr fun entry hentry => Nat.ne_of_lt (hless entry hentry)
    have hinsert : graph.insert (.basic block) =
        .ok { graph with blocks := graph.blocks ++ [(block.id, .basic block)] } := by
      rw [insert, hfree]
      exact congrArg (fun blocks => Except.ok { graph with blocks }) (Keyed.insert_of_lt hless _)
    rw [List.foldlM_cons, hfit.inWords_eq, hinsert]
    refine (ih hfits hascends.2 fun entry hentry other hother => ?_).trans ?_
    · rcases List.mem_append.mp hentry with hentry | hentry
      · exact hbehind entry hentry other (List.mem_cons_of_mem block hother)
      · rw [List.mem_singleton.mp hentry]
        exact hascends.1 other.id (List.mem_map_of_mem hother)
    · rw [List.append_assoc]
      rfl

/-! ### Errors -/

section Errors

variable {isa : InstructionSet} {metadata : Metadata} {error : Error}

theorem unknown_of_operandKind {opcode : UInt8} (h : isa.operandKind opcode = .error error) :
    error = .unknownOpcode opcode := by
  have hget : isa.get opcode = .error error := map_eq_error.mp h
  rw [InstructionSet.get] at hget
  split at hget
  · cases hget
  · exact (Except.error.inj hget).symm

theorem symbolIndex_of_ofArgument {kind : OperandKind} {argument : Option Nat}
    (h : Operand.ofArgument kind argument metadata = .error error) :
    ∃ table, error = .symbolIndex table (argument.getD 0) := by
  have hentry : ∀ {α : Type} {table : TableKind} {found : Option α} {made : α → Operand},
      (Operand.entryAt table (argument.getD 0) found).map made = .error error →
        ∃ table, error = .symbolIndex table (argument.getD 0) := by
    intro α table found made h
    cases found with
    | none => exact ⟨table, (Except.error.inj (map_eq_error.mp h)).symm⟩
    | some entry => cases h
  cases kind with
  | none | immediate | relativeJump | absoluteJump => cases h
  | constant | name | localName | closure => exact hentry h

/-- An instruction cannot be read if its opcode is unknown, if it is a branch without a target, or
if its argument is beyond a table. -/
theorem category_of_read {d : Decoded} (h : Item.read isa metadata d = .error error) :
    error.category ≠ .structural := by
  rcases bind_eq_error.mp h with h | ⟨kind, -, h⟩
  · rw [unknown_of_operandKind h]
    simp [Error.category]
  · split at h
    · split at h
      · obtain rfl : Error.unresolvedBranch d.offset = error := Except.error.inj h
        simp [Error.category]
      · cases h
    · rcases bind_eq_error.mp h with h | ⟨operand, -, h⟩
      · obtain ⟨table, rfl⟩ := symbolIndex_of_ofArgument h
        simp [Error.category]
      · cases h

/-- A draft does not become a block if its branch lands nowhere. -/
theorem category_of_toBlock {labels : Std.HashMap Nat Label} {draft : Draft}
    (h : draft.toBlock labels = .error error) : error.category ≠ .structural := by
  rw [Draft.toBlock] at h
  cases hbranch : draft.branch with
  | none =>
    rw [hbranch] at h
    cases h
  | some branch =>
    obtain ⟨opcode, target⟩ := branch
    rw [hbranch] at h
    cases hlabel : labels[target]? with
    | some label =>
      simp only [hlabel] at h
      cases h
    | none =>
      simp only [hlabel] at h
      obtain rfl : Error.strayBranchTarget target = error := Except.error.inj h
      simp [Error.category]

theorem category_of_ofDecoded {granularity : Granularity} {decoded : List Decoded}
    (h : ofDecoded isa metadata granularity decoded = .error error) :
    error.category ≠ .structural := by
  rcases bind_eq_error.mp h with h | ⟨scan, -, h⟩
  · obtain ⟨d, -, hread⟩ :=
      exists_of_mapM_eq_error ((foldlM_step_eq_error granularity Scan.sound_start).mp h)
    exact category_of_read hread
  · rcases bind_eq_error.mp h with h | ⟨blocks, -, h⟩
    · obtain ⟨draft, -, hmade⟩ := exists_of_mapM_eq_error h
      exact category_of_toBlock hmade
    · cases h

end Errors

/-- With fewer instructions than words, numbers are words and each of them is free. -/
theorem insertDecoded_eq (isa : InstructionSet) (metadata : Metadata) (granularity : Granularity)
    {decoded : List Decoded} (hcount : decoded.length < 0xffffffff) :
    insertDecoded isa metadata granularity decoded =
      ofDecoded isa metadata granularity decoded := by
  rw [insertDecoded, ofDecoded]
  refine bind_congr_of_eq_ok fun scan hscan => bind_congr_of_eq_ok fun blocks hblocks => ?_
  have hkept := Scan.Kept.foldlM hscan
  have hordered := ordered_drafts hkept.sound
  have hmade := mapM_eq_ok.mp hblocks
  have hdrafts := hkept.drafts_length
  have hlabels : ∀ (offset : Nat) (label : Label), scan.labels[offset]? = some label →
      label.block ≤ 0xffffffff := fun offset label hlabel => by
    have := hkept.labels offset label hlabel
    have := hkept.count
    omega
  have hids : ∀ draft ∈ scan.drafts, draft.id < 0xffffffff := by
    intro draft hdraft
    have hle := Scan.id_le_of_ids hordered.ids draft hdraft
    omega
  have hfits : ∀ block ∈ blocks, block.FitsWords := by
    intro block hblock
    obtain ⟨draft, hdraft, hto⟩ := exists_of_mem_right hmade hblock
    exact fitsWords_of_toBlock hlabels (hids draft hdraft) hto
  have hascends : (blocks.map (·.id)).Pairwise (· < ·) := by
    rw [ids_of_ordered hordered hmade]
    exact List.pairwise_lt_range'
  exact foldlM_insert hfits hascends fun entry hentry => absurd hentry List.not_mem_nil

/-- Along a whole scan no block is open while another one waits for the block behind it, and the open
block is never empty between two instructions.  Blocks that are inserted under their numbers thus
make the graph of the code, and if there is none, then the structure of the graph is not the reason:
the two marks did not meet, and no number was taken twice. -/
theorem insertDecoded_apart (isa : InstructionSet) (metadata : Metadata)
    (granularity : Granularity) {decoded : List Decoded} (hcount : decoded.length < 0xffffffff) :
    (∀ front scan, front <+: decoded →
        front.foldlM (Scan.step isa metadata granularity) Scan.start = .ok scan →
        scan.Steady ∧ ∀ d, front ++ [d] <+: decoded → scan.StaysApart granularity d) ∧
      insertDecoded isa metadata granularity decoded =
        ofDecoded isa metadata granularity decoded ∧
      ∀ error, insertDecoded isa metadata granularity decoded = .error error →
        error.category ≠ .structural := by
  have hsame := insertDecoded_eq isa metadata granularity hcount
  refine ⟨fun front scan _ hscan => ?_, hsame, fun error herror => ?_⟩
  · obtain ⟨hsound, hlinked, -, -⟩ := Scan.Kept.foldlM hscan
    exact ⟨hsound.steady hlinked, fun d _ => hsound.staysApart granularity d⟩
  · exact category_of_ofDecoded (hsame.symm.trans herror)

/-- Instructions that do nothing, two of them at one offset.  The second one starts a line and is a
target, and the third one is a target. -/
def marked : List Decoded :=
  [{ offset := 0, size := 1, opcode := 9, argument := none, target := none, line := some 1,
      isTarget := false },
   { offset := 0, size := 1, opcode := 9, argument := none, target := none, line := some 2,
      isTarget := true },
   { offset := 1, size := 1, opcode := 9, argument := none, target := none, line := none,
      isTarget := true }]

/-- A block is open in front of the last instruction and behind it, and each instruction has a block
of its own. -/
theorem marked_apart :
    marked.length < 0xffffffff ∧
      ∃ scan graph, (marked.take 2).foldlM (Scan.step .small default .fine) Scan.start = .ok scan ∧
        scan.current.map (·.id) = some 2 ∧ scan.Steady ∧
        (∀ d ∈ marked[2]?, scan.StaysApart .fine d) ∧
        insertDecoded .small default .fine marked = .ok graph ∧
        graph.blocks.map (·.1) = [1, 2, 3] := by
  have hcount : marked.length < 0xffffffff := by decide
  obtain ⟨happart, hsame, -⟩ := insertDecoded_apart .small default .fine hcount
  obtain ⟨hsteady, hstays⟩ := happart (marked.take 2) _ (List.take_prefix 2 marked) rfl
  exact ⟨hcount, _, _, rfl, rfl, hsteady, fun d hd => hstays d (by cases hd; exact List.prefix_rfl),
    hsame.trans rfl, rfl⟩

end Graph
end StackCode
