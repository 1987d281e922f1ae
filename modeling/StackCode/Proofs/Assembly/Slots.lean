import Mathlib.Algebra.BigOperators.Group.List.Basic
import StackCode.Assembly.Slot
import StackCode.Proofs.Graph.Order
import StackCode.Proofs.Outcome

/-!
Slots of laid out blocks.  Each instruction becomes one slot, in the order of the layout, and a
label names the index of the slot it lands on.  Which lines start where depends on the lines of
the instructions only, and not on where blocks are cut.
-/

namespace StackCode

open Outcome

namespace InstructionSet

theorem isJump_of_operandKind {isa : InstructionSet} {opcode : UInt8} {kind : OperandKind}
    (h : isa.operandKind opcode = .ok kind) : isa.isJump opcode = kind.isJump := by
  obtain ⟨definition, hget, rfl⟩ := map_eq_ok.mp h
  rw [get] at hget
  rw [isJump]
  cases hfind : isa.get? opcode with
  | none => rw [hfind] at hget; cases hget
  | some found =>
    rw [hfind] at hget
    cases hget
    rfl

/-- The extension is no opcode of its own. -/
theorem ne_extension_of_operandKind {isa : InstructionSet} {opcode : UInt8} {kind : OperandKind}
    (h : isa.operandKind opcode = .ok kind) : opcode ≠ isa.extension := by
  obtain ⟨definition, hget, rfl⟩ := map_eq_ok.mp h
  rw [get] at hget
  cases hfind : isa.get? opcode with
  | none => rw [hfind] at hget; cases hget
  | some found =>
    have hopcode : found.opcode = opcode := by simpa using List.find?_some hfind
    exact hopcode ▸ isa.extension_free found (List.mem_of_find?_eq_some hfind)

end InstructionSet

/-- An instruction with a defined opcode has a stack effect. -/
theorem Instruction.exists_stackEffect {isa : InstructionSet} {instruction : Instruction}
    {kind : OperandKind} (h : isa.operandKind instruction.opcode = .ok kind) :
    ∃ effect, instruction.stackEffect isa = .ok effect := by
  obtain ⟨definition, hdefinition, -⟩ := map_eq_ok.mp h
  exact ⟨_, map_eq_ok.mpr ⟨definition, hdefinition, rfl⟩⟩

/-- Branches stand at the end of the block only. -/
structure BasicBlock.Sorted (isa : InstructionSet) (block : BasicBlock) : Prop where
  body : ∀ instruction ∈ block.instructions, isa.isJump instruction.opcode = false
  jump : ∀ instruction ∈ block.jump.toList, isa.isJump instruction.opcode = true

namespace Flat

/-! ### Labels -/

/-- The slot index that a label names in blocks laid out in this order. -/
def Names (blocks : List BasicBlock) (label : Label) (index : Nat) : Prop :=
  ∃ before block after, blocks = before ++ block :: after ∧ block.id = label.block ∧
    label.index ≤ block.size ∧ index = BasicBlock.totalSize before + label.index

theorem Names.le {blocks : List BasicBlock} {label : Label} {index : Nat}
    (h : Names blocks label index) : index ≤ BasicBlock.totalSize blocks := by
  obtain ⟨before, block, after, rfl, -, hsize, rfl⟩ := h
  rw [BasicBlock.totalSize_append, BasicBlock.totalSize_cons]
  omega

/-- Where ids are distinct, a label names one index at most. -/
theorem Names.unique {blocks : List BasicBlock} (hids : (blocks.map (·.id)).Nodup) {label : Label}
    {index index' : Nat} (h : Names blocks label index) (h' : Names blocks label index') :
    index = index' := by
  obtain ⟨before, block, after, rfl, hid, -, rfl⟩ := h
  obtain ⟨before', block', after', hsplit, hid', -, rfl⟩ := h'
  have hkeys : before.map (·.id) ++ block.id :: after.map (·.id) =
      before'.map (·.id) ++ block'.id :: after'.map (·.id) := by
    simpa using congrArg (List.map (·.id)) hsplit
  rw [List.map_append, List.map_cons, List.nodup_middle, List.nodup_cons, List.mem_append,
    not_or, hid, ← hid'] at hids
  have hfront := ((List.append_cons_inj_of_notMem hids.1.1 hids.1.2).mp hkeys).1
  have hlength : before.length = before'.length := by
    simpa using congrArg List.length hfront
  rw [(List.append_inj hsplit hlength).1]

theorem placed_append (before after : List BasicBlock) :
    ∀ start, placed start (before ++ after) =
      placed start before ++ placed (start + BasicBlock.totalSize before) after := by
  induction before with
  | nil => intro start; rfl
  | cons block rest ih =>
    intro start
    rw [List.cons_append, placed, placed, ih, BasicBlock.totalSize_cons, Nat.add_assoc,
      List.cons_append]

theorem map_fst_placed (blocks : List BasicBlock) :
    ∀ start, (placed start blocks).map (·.1) = blocks := by
  induction blocks with
  | nil => intro start; rfl
  | cons block rest ih =>
    intro start
    rw [placed, List.map_cons, ih]

/-- The only block with a given id is found where it stands. -/
theorem find?_placed {before after : List BasicBlock} {block : BasicBlock}
    (hids : ((before ++ block :: after).map (·.id)).Nodup) :
    (placed 0 (before ++ block :: after)).find? (·.1.id = block.id) =
      some (block, BasicBlock.totalSize before) := by
  rw [placed_append, placed, Nat.zero_add]
  refine List.find?_eq_some_iff_append.mpr ⟨by simp, _, _, rfl, fun other hother => ?_⟩
  have hmem : other.1 ∈ before := by
    rw [← map_fst_placed before 0]
    exact List.mem_map_of_mem hother
  rw [List.map_append, List.nodup_append] at hids
  have hne := hids.2.2 other.1.id (List.mem_map_of_mem hmem) block.id (by simp)
  simpa using hne

theorem resolve_eq_ok {blocks : List BasicBlock} (hids : (blocks.map (·.id)).Nodup)
    {label : Label} {index : Nat} :
    resolve (placed 0 blocks) (BasicBlock.totalSize blocks) label = .ok index ↔
      Names blocks label index ∧ index < BasicBlock.totalSize blocks := by
  rw [resolve]
  constructor
  · intro h
    cases hfind : (placed 0 blocks).find? (·.1.id = label.block) with
    | none => rw [hfind] at h; cases h
    | some found =>
      rw [hfind] at h
      have hmem : found.1 ∈ blocks := by
        rw [← map_fst_placed blocks 0]
        exact List.mem_map_of_mem (List.mem_of_find?_eq_some hfind)
      have hid : found.1.id = label.block := by simpa using List.find?_some hfind
      obtain ⟨before, after, hsplit⟩ := List.append_of_mem hmem
      rw [hsplit] at hids hfind
      rw [← hid, find?_placed hids, Option.some.injEq] at hfind
      rw [← hfind] at h
      simp only at h
      split at h
      · cases h
      · rename_i hinside
        cases h
        have hnames : Names blocks label (BasicBlock.totalSize before + label.index) :=
          ⟨before, found.1, after, hsplit, hid, by omega, rfl⟩
        have := hnames.le
        exact ⟨hnames, by omega⟩
  · rintro ⟨⟨before, block, after, rfl, hid, hsize, rfl⟩, hlt⟩
    rw [← hid, find?_placed hids]
    simp only
    rw [if_neg (by omega)]

/-! ### Slots -/

/-- The slot of an instruction that stands somewhere in the blocks. -/
structure Resolved (isa : InstructionSet) (metadata : Metadata) (verify : Bool)
    (blocks : List BasicBlock) (instruction : Instruction) (slot : Slot) : Prop where
  same : slot.instruction = instruction
  kind : isa.operandKind instruction.opcode = .ok slot.kind
  plain : slot.kind.isJump = false → instruction.label? = none ∧ slot.target = none ∧
    instruction.operand.argument instruction.opcode slot.kind metadata verify = .ok slot.argument
  branch : slot.kind.isJump = true → slot.argument = 0 ∧
    ∃ label index, instruction.label? = some label ∧ slot.target = some index ∧
      Names blocks label index ∧ index < BasicBlock.totalSize blocks

section Slots

variable {isa : InstructionSet} {metadata : Metadata} {verify : Bool} {blocks : List BasicBlock}

theorem bodySlot_eq_ok (blocks : List BasicBlock) {id : Nat} {instruction : Instruction}
    {slot : Slot} :
    bodySlot isa metadata verify id instruction = .ok slot ↔
      isa.isJump instruction.opcode = false ∧
        Resolved isa metadata verify blocks instruction slot := by
  simp only [bodySlot, bind_eq_ok]
  constructor
  · rintro ⟨kind, hkind, h⟩
    split at h
    · obtain ⟨_, h, -⟩ := bind_eq_ok.mp h
      cases h
    · rename_i hplain
      have hplain : kind.isJump = false := by simpa using hplain
      cases hlabel : instruction.label? with
      | some label =>
        rw [hlabel] at h
        cases h
      | none =>
        rw [hlabel] at h
        obtain ⟨argument, hargument, h⟩ := bind_eq_ok.mp h
        cases h
        refine ⟨(InstructionSet.isJump_of_operandKind hkind).trans hplain, rfl, hkind,
          fun _ => ⟨hlabel, rfl, hargument⟩, fun hjump => ?_⟩
        rw [hplain] at hjump
        cases hjump
  · rintro ⟨hplain, rfl, hkind, hresolved, -⟩
    have hkindPlain : slot.kind.isJump = false := by
      rw [← InstructionSet.isJump_of_operandKind hkind, hplain]
    obtain ⟨hlabel, htarget, hargument⟩ := hresolved hkindPlain
    refine ⟨slot.kind, hkind, ?_⟩
    rw [hkindPlain, hlabel, hargument]
    show Except.ok _ = _
    rw [← htarget]

theorem jumpSlot_eq_ok (metadata : Metadata) (verify : Bool) (hids : (blocks.map (·.id)).Nodup)
    {id : Nat} {instruction : Instruction} {slot : Slot} :
    jumpSlot isa (placed 0 blocks) (BasicBlock.totalSize blocks) id instruction = .ok slot ↔
      isa.isJump instruction.opcode = true ∧
        Resolved isa metadata verify blocks instruction slot := by
  simp only [jumpSlot, bind_eq_ok]
  constructor
  · rintro ⟨kind, hkind, h⟩
    cases hjump : kind.isJump with
    | false =>
      rw [hjump] at h
      obtain ⟨_, h, -⟩ := bind_eq_ok.mp h
      cases h
    | true =>
      rw [hjump] at h
      cases hlabel : instruction.label? with
      | none =>
        rw [hlabel] at h
        cases h
      | some label =>
        rw [hlabel] at h
        obtain ⟨target, htarget, h⟩ := bind_eq_ok.mp h
        cases h
        obtain ⟨hnames, hlt⟩ := (resolve_eq_ok hids).mp htarget
        refine ⟨(InstructionSet.isJump_of_operandKind hkind).trans hjump, rfl, hkind,
          fun hplain => ?_, fun _ => ⟨rfl, label, target, hlabel, rfl, hnames, hlt⟩⟩
        rw [hjump] at hplain
        cases hplain
  · rintro ⟨hjump, rfl, hkind, -, hresolved⟩
    have hkindJump : slot.kind.isJump = true := by
      rw [← InstructionSet.isJump_of_operandKind hkind, hjump]
    obtain ⟨hargument, label, index, hlabel, htarget, hnames, hlt⟩ := hresolved hkindJump
    refine ⟨slot.kind, hkind, ?_⟩
    rw [hkindJump, hlabel]
    show (resolve _ _ _ >>= _) = _
    rw [(resolve_eq_ok hids).mpr ⟨hnames, hlt⟩]
    show Except.ok _ = _
    rw [← htarget, ← hargument]

theorem blockSlots_eq_ok (hids : (blocks.map (·.id)).Nodup) {block : BasicBlock}
    {slots : List Slot} :
    blockSlots isa metadata verify (placed 0 blocks) (BasicBlock.totalSize blocks) block =
        .ok slots ↔
      block.Sorted isa ∧
        List.Forall₂ (Resolved isa metadata verify blocks) block.all slots := by
  simp only [blockSlots, bind_eq_ok, pure_eq_ok, mapM_eq_ok, bodySlot_eq_ok blocks,
    jumpSlot_eq_ok metadata verify hids, List.forall₂_and_left]
  rw [BasicBlock.all, forall₂_append_iff]
  constructor
  · rintro ⟨body, ⟨hbody, hslots⟩, jump, ⟨hjump, hjumps⟩, rfl⟩
    exact ⟨⟨hbody, hjump⟩, body, jump, hslots, hjumps, rfl⟩
  · rintro ⟨⟨hbody, hjump⟩, body, jump, hslots, hjumps, rfl⟩
    exact ⟨body, ⟨hbody, hslots⟩, jump, ⟨hjump, hjumps⟩, rfl⟩

theorem ofBlocks_eq_ok (hids : (blocks.map (·.id)).Nodup) {flat : Flat} :
    ofBlocks isa metadata verify blocks = .ok flat ↔
      (∀ block ∈ blocks, block.Sorted isa) ∧
        List.Forall₂ (Resolved isa metadata verify blocks) (blocks.flatMap (·.all)) flat.slots ∧
        flat.lines = lineStarts none (placed 0 blocks) := by
  have hparts : ∀ parts, (placed 0 blocks).mapM (fun x =>
      blockSlots isa metadata verify (placed 0 blocks) (BasicBlock.totalSize blocks) x.1) =
        .ok parts ↔ (∀ block ∈ blocks, block.Sorted isa) ∧
          List.Forall₂ (fun block part =>
            List.Forall₂ (Resolved isa metadata verify blocks) block.all part) blocks parts := by
    intro parts
    rw [mapM_eq_ok, ← List.forall₂_and_left]
    conv_rhs => rw [← map_fst_placed blocks 0, List.forall₂_map_left_iff]
    simp only [blockSlots_eq_ok hids, map_fst_placed]
  simp only [ofBlocks, bind_eq_ok, pure_eq_ok]
  rw [forall₂_flatMap_iff]
  constructor
  · rintro ⟨parts, h, rfl⟩
    obtain ⟨hsorted, hslots⟩ := (hparts parts).mp h
    exact ⟨hsorted, ⟨parts, hslots, rfl⟩, rfl⟩
  · rintro ⟨hsorted, ⟨parts, hslots, hflat⟩, hlines⟩
    refine ⟨parts, (hparts parts).mpr ⟨hsorted, hslots⟩, ?_⟩
    rw [hflat, ← hlines]

end Slots

/-! ### Lines -/

/-- The line of the block of each instruction. -/
def tags (blocks : List BasicBlock) : List (Option UInt32) :=
  blocks.flatMap fun block => List.replicate block.size block.line

theorem tags_append (front back : List BasicBlock) :
    tags (front ++ back) = tags front ++ tags back := List.flatMap_append

theorem tags_cons (block : BasicBlock) (rest : List BasicBlock) :
    tags (block :: rest) = List.replicate block.size block.line ++ tags rest := rfl

/-- The indices at which the line changes, from `index` on behind line `current`. -/
def changes (index : Nat) (current : Option UInt32) : List (Option UInt32) → List (Nat × UInt32)
  | [] => []
  | none :: rest => changes (index + 1) current rest
  | some line :: rest =>
    if current = some line then changes (index + 1) current rest
    else (index, line) :: changes (index + 1) (some line) rest

theorem changes_replicate_none (current : Option UInt32) (count : Nat)
    (rest : List (Option UInt32)) :
    ∀ index, changes index current (List.replicate count none ++ rest) =
      changes (index + count) current rest := by
  induction count with
  | zero => intro index; rfl
  | succ count ih =>
    intro index
    rw [List.replicate_succ, List.cons_append, changes, ih]
    congr 1
    omega

theorem changes_replicate_some (line : UInt32) (count : Nat) (rest : List (Option UInt32)) :
    ∀ index, changes index (some line) (List.replicate count (some line) ++ rest) =
      changes (index + count) (some line) rest := by
  induction count with
  | zero => intro index; rfl
  | succ count ih =>
    intro index
    rw [List.replicate_succ, List.cons_append, changes, if_pos rfl, ih]
    congr 1
    omega

/-- Where blocks are cut does not matter to the lines. -/
theorem lineStarts_placed (blocks : List BasicBlock) :
    ∀ start current, lineStarts current (placed start blocks) =
      changes start current (tags blocks) := by
  induction blocks with
  | nil => intro start current; rfl
  | cons block rest ih =>
    intro start current
    rw [placed, lineStarts, tags_cons]
    cases hline : block.line with
    | none =>
      rw [changes_replicate_none]
      exact ih _ _
    | some line =>
      simp only
      by_cases hempty : block.size = 0
      · have hisEmpty : block.isEmpty = true := by simpa [BasicBlock.isEmpty] using hempty
        rw [if_pos (.inl hisEmpty), hempty]
        exact ih _ _
      · have hisEmpty : ¬block.isEmpty = true := by simpa [BasicBlock.isEmpty] using hempty
        by_cases hsame : current = some line
        · rw [if_pos (.inr hsame), hsame, changes_replicate_some]
          exact ih _ _
        · obtain ⟨count, hcount⟩ := Nat.exists_eq_succ_of_ne_zero hempty
          rw [if_neg (by tauto), ih, hcount, List.replicate_succ, List.cons_append, changes,
            if_neg hsame, changes_replicate_some]
          congr 2
          omega

theorem length_tags (blocks : List BasicBlock) :
    (tags blocks).length = BasicBlock.totalSize blocks := by
  induction blocks with
  | nil => rfl
  | cons block rest ih =>
    rw [tags_cons, List.length_append, List.length_replicate, ih, BasicBlock.totalSize_cons]

theorem length_flatMap_all (blocks : List BasicBlock) :
    (blocks.flatMap (·.all)).length = BasicBlock.totalSize blocks := by
  induction blocks with
  | nil => rfl
  | cons block rest ih =>
    rw [List.flatMap_cons, List.length_append, BasicBlock.length_all, ih,
      BasicBlock.totalSize_cons]

end Flat
end StackCode
