import StackCode.InstructionSet.Small
import StackCode.Proofs.Assembly.Code
import StackCode.Proofs.Assembly.Lines

/-!
Assembled code is faithful to its graph.  Decoding it gives one instruction for each instruction
of the graph, in layout order, with the opcode and the argument it was assembled from, and every
branch lands on the instruction that its label names.
-/

namespace StackCode

open Outcome

namespace Assembly

/-- The stack height is measured exactly if that was asked for. -/
def Measured (graph : Graph) (settings : AssemblySettings) (slots : List Slot)
    (assembly : Assembly) : Prop :=
  if settings.measureStack then
    ∃ peak, StackHeight.peak graph.isa slots = .ok peak ∧
      assembly.metadata = { graph.metadata with
        stackSize := max graph.metadata.stackSize (saturateToWord peak) } ∧
      assembly.stackHeight = some (saturateToWord peak)
  else assembly.metadata = graph.metadata ∧ assembly.stackHeight = none

/-- The line starts that an assembly is given. -/
def marksOf (blocks : List BasicBlock) (layout : Layout) : List LineStart :=
  Flat.marks none (layout.offsets.toList.zip (Flat.tags blocks))

/-- What an assembly is made from. -/
structure Built (graph : Graph) (settings : AssemblySettings) (assembly : Assembly)
    (blocks : List BasicBlock) (slots : List Slot) (layout : Layout) : Prop where
  linear : graph.linearize = .ok blocks
  sorted : ∀ block ∈ blocks, block.Sorted graph.isa
  resolved : List.Forall₂ (Flat.Resolved graph.isa graph.metadata settings.verify blocks)
    (blocks.flatMap (·.all)) slots
  settled : Layout.ofSlots slots settings.passes = .ok layout
  bytecode : assembly.bytecode =
    { code := Layout.code graph.isa.extension slots layout.widths
      firstLine := (LineTable.encode graph.metadata.firstLine (marksOf blocks layout)).1
      lineTable := (LineTable.encode graph.metadata.firstLine (marksOf blocks layout)).2 }
  passes : assembly.passes = layout.passes
  measured : Measured graph settings slots assembly

theorem size_offsets {slots : List Slot} {budget : Nat} {layout : Layout}
    (h : Layout.ofSlots slots budget = .ok layout) : layout.offsets.size = slots.length + 1 := by
  rw [← Array.length_toList]
  exact (Layout.placed_of_ofSlots h).length_eq.2

/-- All slots of the blocks have been placed. -/
theorem totalSize_le_offsets {isa : InstructionSet} {metadata : Metadata} {verify : Bool}
    {blocks : List BasicBlock} {slots : List Slot} {budget : Nat} {layout : Layout}
    (hslots : List.Forall₂ (Flat.Resolved isa metadata verify blocks) (blocks.flatMap (·.all)) slots)
    (hlayout : Layout.ofSlots slots budget = .ok layout) :
    BasicBlock.totalSize blocks ≤ layout.offsets.size := by
  have hlength := hslots.length_eq
  rw [Flat.length_flatMap_all] at hlength
  rw [size_offsets hlayout]
  omega

theorem assemble_eq_ok {graph : Graph} {settings : AssemblySettings} {assembly : Assembly} :
    graph.assemble settings = .ok assembly ↔
      ∃ blocks slots layout, Built graph settings assembly blocks slots layout := by
  simp only [Graph.assemble, Graph.flatten, bind_eq_ok]
  constructor
  · rintro ⟨flat, ⟨blocks, hlinear, hflat⟩, layout, hlayout, h⟩
    obtain ⟨hperm, hids⟩ := Graph.linearize_perm hlinear
    obtain ⟨hsorted, hslots, hlines⟩ := (Flat.ofBlocks_eq_ok hids).mp hflat
    rw [Flat.lineStartsAt_eq hlines (totalSize_le_offsets hslots hlayout), ← marksOf] at h
    refine ⟨blocks, flat.slots, layout, ?_⟩
    by_cases hmeasure : settings.measureStack = true
    · rw [if_pos hmeasure] at h
      obtain ⟨peak, hpeak, h⟩ := bind_eq_ok.mp h
      cases h
      refine ⟨hlinear, hsorted, hslots, hlayout, rfl, rfl, ?_⟩
      rw [Measured, if_pos hmeasure]
      exact ⟨peak, hpeak, rfl, rfl⟩
    · rw [if_neg hmeasure] at h
      cases h
      refine ⟨hlinear, hsorted, hslots, hlayout, rfl, rfl, ?_⟩
      rw [Measured, if_neg hmeasure]
      exact ⟨rfl, rfl⟩
  · rintro ⟨blocks, slots, layout, hlinear, hsorted, hslots, hlayout, hbytecode, hpasses, hmeasured⟩
    obtain ⟨hperm, hids⟩ := Graph.linearize_perm hlinear
    have hflat : Flat.ofBlocks graph.isa graph.metadata settings.verify blocks =
        .ok { slots, lines := Flat.lineStarts none (Flat.placed 0 blocks) } :=
      (Flat.ofBlocks_eq_ok hids).mpr ⟨hsorted, hslots, rfl⟩
    refine ⟨_, ⟨blocks, hlinear, hflat⟩, layout, hlayout, ?_⟩
    rw [Flat.lineStartsAt_eq rfl (totalSize_le_offsets hslots hlayout), ← marksOf]
    obtain ⟨bytecode, metadata, stackHeight, passes⟩ := assembly
    simp only at hbytecode hpasses
    rw [Measured] at hmeasured
    by_cases hmeasure : settings.measureStack = true
    · rw [if_pos hmeasure] at hmeasured
      obtain ⟨peak, hpeak, hmetadata, hheight⟩ := hmeasured
      simp only at hmetadata hheight
      rw [if_pos hmeasure, hbytecode, hpasses, hmetadata, hheight]
      exact bind_eq_ok.mpr ⟨peak, hpeak, rfl⟩
    · rw [if_neg hmeasure] at hmeasured
      obtain ⟨hmetadata, hheight⟩ := hmeasured
      simp only at hmetadata hheight
      rw [if_neg hmeasure, hbytecode, hpasses, hmetadata, hheight]
      rfl

namespace Built

variable {graph : Graph} {settings : AssemblySettings} {assembly : Assembly}
  {blocks : List BasicBlock} {slots : List Slot} {layout : Layout}

theorem nodup (h : Built graph settings assembly blocks slots layout) :
    (blocks.map (·.id)).Nodup := (Graph.linearize_perm h.linear).2

theorem length_slots (h : Built graph settings assembly blocks slots layout) :
    slots.length = BasicBlock.totalSize blocks := by
  rw [← h.resolved.length_eq, Flat.length_flatMap_all]

theorem placed (h : Built graph settings assembly blocks slots layout) :
    Layout.Placed layout.offsets 0 slots layout.offsets.toList layout.widths :=
  Layout.placed_of_ofSlots h.settled

end Built

/-- The instructions that slots are read back as, without marks and lines. -/
def raw (slots : List Slot) (layout : Layout) : List Decoded :=
  Layout.listing layout.offsets 0 (slots.zip layout.widths)

/-- The line starts that the table of an assembly gives. -/
def startsOf (graph : Graph) (blocks : List BasicBlock) (layout : Layout) : List LineStart :=
  LineTable.written graph.metadata.firstLine (marksOf blocks layout)

/-- The instructions that an assembly decodes to. -/
def listing (graph : Graph) (blocks : List BasicBlock) (slots : List Slot) (layout : Layout) :
    List Decoded :=
  Decoded.lined (startsOf graph blocks layout) (Decoded.marked (raw slots layout))

namespace Built

variable {graph : Graph} {settings : AssemblySettings} {assembly : Assembly}
  {blocks : List BasicBlock} {slots : List Slot} {layout : Layout}

theorem stream (h : Built graph settings assembly blocks slots layout) :
    Decoded.Stream graph.isa 0 assembly.bytecode.code (raw slots layout) := by
  rw [h.bytecode]
  have hfits : ∀ slot ∈ slots, slot.Fits graph.isa slots.length := by
    intro slot hslot
    obtain ⟨instruction, -, hresolved⟩ := exists_of_mem_right h.resolved hslot
    rw [h.length_slots]
    exact hresolved.fits
  have hsize := size_offsets h.settled
  exact h.placed.stream hfits (by omega) h.placed.lt

theorem length_raw (h : Built graph settings assembly blocks slots layout) :
    (raw slots layout).length = slots.length :=
  (Layout.forall₂_listing h.placed).length_eq.symm

theorem length_listing (h : Built graph settings assembly blocks slots layout) :
    (listing graph blocks slots layout).length = slots.length := by
  rw [listing, Decoded.lined, Decoded.marked, List.length_map, List.length_map, h.length_raw]

/-- The settled offsets are the places of the instructions, and the end of the code. -/
theorem offsets_eq (h : Built graph settings assembly blocks slots layout) :
    layout.offsets.toList =
      (raw slots layout).map (·.offset) ++ [Decoded.stopFrom 0 (raw slots layout)] :=
  h.placed.offsets_listing.symm

theorem offset_eq (h : Built graph settings assembly blocks slots layout) {index : Nat}
    (hindex : index < slots.length) :
    layout.offsets[index]? = (raw slots layout)[index]?.map (·.offset) := by
  rw [← Array.getElem?_toList, h.offsets_eq, List.getElem?_append_left, List.getElem?_map]
  rw [List.length_map, h.length_raw]
  exact hindex

/-- An instruction is read back with the opcode and the argument of its slot, and a branch with
the place of the instruction it is aimed at. -/
theorem reads (h : Built graph settings assembly blocks slots layout) :
    List.Forall₂ (fun slot d => d.opcode = slot.instruction.opcode ∧
        d.target = (slot.target.bind fun target => (raw slots layout)[target]?).map (·.offset) ∧
        (slot.target = none →
          d.argument = if slot.kind = .none then none else some slot.argument))
      slots (raw slots layout) := by
  have hlist := forall₂_iff_getElem?.mp (Layout.forall₂_listing h.placed)
  refine forall₂_iff_getElem?.mpr ⟨hlist.1, fun index slot d hslot hd => ?_⟩
  obtain ⟨unit, width, hwidth, rfl⟩ := hlist.2 index slot d hslot hd
  obtain ⟨instruction, -, hresolved⟩ :=
    exists_of_mem_right h.resolved (List.mem_of_getElem? hslot)
  refine ⟨rfl, ?_, fun hnone => ?_⟩
  · rw [Layout.readBack]
    cases htarget : slot.target with
    | none => rfl
    | some target =>
      have hlt := hresolved.fits.target_lt target htarget
      rw [← h.length_slots] at hlt
      exact h.offset_eq hlt
  · rw [Layout.slotWidth, hnone] at hwidth
    simp only [Except.ok.injEq] at hwidth
    rw [← hwidth]
    rfl

theorem landing (h : Built graph settings assembly blocks slots layout) :
    ∀ unit ∈ Decoded.targets (raw slots layout),
      unit ∈ (raw slots layout).map (·.offset) := by
  intro unit hunit
  obtain ⟨d, hd, htarget⟩ := Decoded.mem_targets.mp hunit
  obtain ⟨slot, -, -, hto, -⟩ := exists_of_mem_right h.reads hd
  rw [hto] at htarget
  obtain ⟨other, hother, rfl⟩ := Option.map_eq_some_iff.mp htarget
  obtain ⟨target, -, hat⟩ := Option.bind_eq_some_iff.mp hother
  exact List.mem_map_of_mem (List.mem_of_getElem? hat)

/-! ### Lines -/

theorem length_offsets (h : Built graph settings assembly blocks slots layout) :
    ((raw slots layout).map (·.offset)).length = (Flat.tags blocks).length := by
  rw [List.length_map, h.length_raw, h.length_slots, Flat.length_tags]

/-- The tagged units are the places of the instructions. -/
theorem zip_tags (h : Built graph settings assembly blocks slots layout) :
    layout.offsets.toList.zip (Flat.tags blocks) =
      ((raw slots layout).map (·.offset)).zip (Flat.tags blocks) := by
  rw [h.offsets_eq, ← List.append_nil (Flat.tags blocks), List.zip_append h.length_offsets]
  simp

theorem pairwise_zip_tags (h : Built graph settings assembly blocks slots layout) :
    (layout.offsets.toList.zip (Flat.tags blocks)).Pairwise (·.1 < ·.1) := by
  rw [h.zip_tags]
  have hfst : (((raw slots layout).map (·.offset)).zip (Flat.tags blocks)).map Prod.fst =
      (raw slots layout).map (·.offset) := List.map_fst_zip (Nat.le_of_eq h.length_offsets)
  have hpairwise := h.stream.tiled.pairwise
  rw [← hfst, List.pairwise_map] at hpairwise
  exact hpairwise

theorem pairwise_marks (h : Built graph settings assembly blocks slots layout) :
    (marksOf blocks layout).Pairwise (·.offset < ·.offset) :=
  Flat.pairwise_marks h.pairwise_zip_tags none

theorem lineStarts (h : Built graph settings assembly blocks slots layout) :
    assembly.bytecode.lineStarts = .ok (startsOf graph blocks layout) := by
  rw [Bytecode.lineStarts, h.bytecode]
  exact LineTable.decode_written _ (h.pairwise_marks.imp Nat.le_of_lt)

/-- The line that is active at an instruction is that of the last tag up to it, or of the first one
behind it. -/
theorem lineAt_offset (h : Built graph settings assembly blocks slots layout) {index : Nat}
    {d : Decoded} (hd : (raw slots layout)[index]? = some d) :
    LineTable.lineAt (startsOf graph blocks layout) (2 * d.offset) =
      some (((Flat.lastTag ((Flat.tags blocks).take (index + 1))).or
        ((Flat.tags blocks).findSome? id)).getD graph.metadata.firstLine) := by
  have htags : (layout.offsets.toList.zip (Flat.tags blocks)).map (·.2) = Flat.tags blocks := by
    rw [h.zip_tags]
    exact List.map_snd_zip (Nat.le_of_eq h.length_offsets.symm)
  obtain ⟨tag, hat⟩ :
      ∃ tag, (layout.offsets.toList.zip (Flat.tags blocks))[index]? = some (d.offset, tag) := by
    obtain ⟨hlt, -⟩ := List.getElem?_eq_some_iff.mp hd
    rw [← List.length_map (·.offset), h.length_offsets] at hlt
    refine ⟨(Flat.tags blocks)[index], ?_⟩
    rw [h.zip_tags, List.getElem?_zip_eq_some, List.getElem?_map, hd]
    exact ⟨rfl, List.getElem?_eq_getElem hlt⟩
  have hactive := @Flat.lineAt_marks _ _ _ index none h.pairwise_zip_tags hat
  rw [Option.or_none, Option.or_none, htags] at hactive
  rw [startsOf, LineTable.lineAt_written _ _ (h.pairwise_marks.imp Nat.le_of_lt), marksOf,
    hactive, Flat.head?_marks, htags]

/-- Every line but the first starts at an instruction. -/
theorem offset_of_starts (h : Built graph settings assembly blocks slots layout) :
    ∀ start ∈ startsOf graph blocks layout, start.offset = 0 ∨
      ∃ unit ∈ (raw slots layout).map (·.offset), start.offset = 2 * unit := by
  intro start hstart
  rcases LineTable.mem_written hstart with hzero | hmark
  · exact .inl hzero
  · rw [marksOf, h.zip_tags] at hmark
    obtain ⟨⟨unit, tag⟩, hpair, hoffset⟩ := Flat.mem_marks hmark
    exact .inr ⟨unit, (List.of_mem_zip hpair).1, hoffset⟩

/-- The first line starts at the first instruction, or at the end of empty code. -/
theorem zero_mem (h : Built graph settings assembly blocks slots layout) :
    raw slots layout = [] ∨ 0 ∈ (raw slots layout).map (·.offset) := by
  have htiled := h.stream.tiled
  cases hraw : raw slots layout with
  | nil => exact .inl rfl
  | cons first rest =>
    rw [hraw] at htiled
    exact .inr (List.mem_map.mpr ⟨first, List.mem_cons_self, htiled.1⟩)

theorem starting (h : Built graph settings assembly blocks slots layout) :
    ∀ start ∈ startsOf graph blocks layout, Decoded.Landing (raw slots layout) start := by
  intro start hstart
  rcases h.offset_of_starts start hstart with hzero | ⟨unit, hunit, hoffset⟩
  · refine ⟨by omega, ?_⟩
    rw [hzero, Nat.zero_div]
    exact h.zero_mem.imp (fun hnone => by rw [hnone]; rfl) id
  · have hhalf : start.offset / 2 = unit := by omega
    exact ⟨by omega, .inr (hhalf ▸ hunit)⟩

theorem decodes (h : Built graph settings assembly blocks slots layout) :
    Decoded.ofBytecode graph.isa assembly.bytecode =
      .ok (listing graph blocks slots layout) :=
  Decoded.ofBytecode_eq_ok.mpr ⟨_, _, h.stream, h.landing, h.lineStarts, h.starting, rfl⟩

/-- Exactly the instructions that some label names are marked. -/
theorem mem_targets_iff (h : Built graph settings assembly blocks slots layout) {index : Nat}
    {d : Decoded} (hd : (raw slots layout)[index]? = some d) :
    d.offset ∈ Decoded.targets (raw slots layout) ↔
      ∃ instruction ∈ blocks.flatMap (·.all), ∃ label, instruction.label? = some label ∧
        Flat.Names blocks label index := by
  constructor
  · intro htargets
    obtain ⟨branch, hbranch, htarget⟩ := Decoded.mem_targets.mp htargets
    obtain ⟨slot, hslot, -, hto, -⟩ := exists_of_mem_right h.reads hbranch
    obtain ⟨instruction, hinstruction, hresolved⟩ := exists_of_mem_right h.resolved hslot
    rw [hto] at htarget
    obtain ⟨other, hother, hsame⟩ := Option.map_eq_some_iff.mp htarget
    obtain ⟨target, hslotTarget, hat⟩ := Option.bind_eq_some_iff.mp hother
    have hjump : slot.kind.isJump = true := by
      rw [← hresolved.fits.target, hslotTarget]
      rfl
    obtain ⟨-, label, named, hlabel, hnamed, hnames, -⟩ := hresolved.branch hjump
    rw [hslotTarget, Option.some.injEq] at hnamed
    have hindex : target = index := h.stream.tiled.index_eq hat hd hsame
    exact ⟨instruction, hinstruction, label, hlabel, hindex ▸ hnamed ▸ hnames⟩
  · rintro ⟨instruction, hinstruction, label, hlabel, hnames⟩
    obtain ⟨slot, hslot, hresolved⟩ := exists_of_mem h.resolved hinstruction
    obtain ⟨branch, hbranch, -, hto, -⟩ := exists_of_mem h.reads hslot
    have hjump : slot.kind.isJump = true := by
      refine Bool.eq_true_of_not_eq_false fun hplain => ?_
      rw [(hresolved.plain hplain).1] at hlabel
      cases hlabel
    obtain ⟨-, label', target, hlabel', htarget, hnames', -⟩ := hresolved.branch hjump
    rw [hlabel, Option.some.injEq] at hlabel'
    have hindex : target = index := (hlabel' ▸ hnames').unique h.nodup hnames
    rw [htarget, hindex, Option.bind_some, hd, Option.map_some] at hto
    exact Decoded.mem_targets.mpr ⟨branch, hbranch, hto⟩

end Built

/-- What a decoded instruction keeps of the one at `index` of the blocks it was assembled
from. -/
structure Carries (graph : Graph) (verify : Bool) (blocks : List BasicBlock)
    (decoded : List Decoded) (index : Nat) (instruction : Instruction) (d : Decoded) : Prop where
  opcode : d.opcode = instruction.opcode
  branch : graph.isa.isJump instruction.opcode = true →
    ∃ label target landing, instruction.label? = some label ∧ Flat.Names blocks label target ∧
      decoded[target]? = some landing ∧ d.target = some landing.offset
  plain : ∀ kind, graph.isa.operandKind instruction.opcode = .ok kind → kind.isJump = false →
    d.target = none ∧ (kind ≠ .none → ∃ argument,
      instruction.operand.argument instruction.opcode kind graph.metadata verify = .ok argument ∧
        d.argument = some argument)
  isTarget : d.isTarget = true ↔ ∃ other ∈ blocks.flatMap (·.all), ∃ label,
    other.label? = some label ∧ Flat.Names blocks label index

theorem getElem?_listing (graph : Graph) (blocks : List BasicBlock) (slots : List Slot)
    (layout : Layout) (index : Nat) :
    (listing graph blocks slots layout)[index]? = (raw slots layout)[index]?.map fun d =>
      { d with
        isTarget := decide (d.offset ∈ Decoded.targets (raw slots layout))
        line := Decoded.startingAt (startsOf graph blocks layout) d.offset } := by
  rw [listing, Decoded.lined, Decoded.marked, List.getElem?_map, List.getElem?_map,
    Option.map_map]
  rfl

theorem Built.carries {graph : Graph} {settings : AssemblySettings} {assembly : Assembly}
    {blocks : List BasicBlock} {slots : List Slot} {layout : Layout}
    (h : Built graph settings assembly blocks slots layout) {index : Nat}
    {instruction : Instruction} {d : Decoded}
    (hinstruction : (blocks.flatMap (·.all))[index]? = some instruction)
    (hd : (listing graph blocks slots layout)[index]? = some d) :
    Carries graph settings.verify blocks (listing graph blocks slots layout) index instruction
      d := by
  obtain ⟨slot, hslot, hresolved⟩ := exists_of_getElem? h.resolved hinstruction
  obtain ⟨source, hsource, hopcode, htarget, hargument⟩ := exists_of_getElem? h.reads hslot
  rw [getElem?_listing, hsource, Option.map_some, Option.some.injEq] at hd
  have hkind := InstructionSet.isJump_of_operandKind hresolved.kind
  subst hd
  refine ⟨?_, fun hjump => ?_, fun kind hof hplain => ?_, ?_⟩
  · rw [← hresolved.same]
    exact hopcode
  · obtain ⟨-, label, target, hlabel, hto, hnames, hlt⟩ := hresolved.branch (hkind ▸ hjump)
    rw [← h.length_slots, ← h.length_raw] at hlt
    have hat := List.getElem?_eq_getElem hlt
    have hlanding := getElem?_listing graph blocks slots layout target
    rw [hat, Option.map_some] at hlanding
    rw [hto, Option.bind_some, hat] at htarget
    exact ⟨label, target, _, hlabel, hnames, hlanding, htarget⟩
  · have hsame : kind = slot.kind := Except.ok.inj (hof.symm.trans hresolved.kind)
    rw [hsame] at hplain ⊢
    obtain ⟨-, hto, hoperand⟩ := hresolved.plain hplain
    refine ⟨?_, fun hnone => ⟨slot.argument, hoperand, ?_⟩⟩
    · rw [hto] at htarget
      exact htarget
    · have := hargument hto
      rwa [if_neg hnone] at this
  · rw [← h.mem_targets_iff hsource, decide_eq_true_eq]

/-- Assembled code decodes to the instructions of its graph in layout order. -/
theorem assemble_decodes {graph : Graph} {settings : AssemblySettings} {assembly : Assembly}
    (h : graph.assemble settings = .ok assembly) :
    ∃ blocks decoded, graph.linearize = .ok blocks ∧ blocks.Perm graph.leaves ∧
      Decoded.ofBytecode graph.isa assembly.bytecode = .ok decoded ∧
      decoded.length = (blocks.flatMap (·.all)).length ∧
      ∀ index instruction d, (blocks.flatMap (·.all))[index]? = some instruction →
        decoded[index]? = some d →
        Carries graph settings.verify blocks decoded index instruction d := by
  obtain ⟨blocks, slots, layout, hbuilt⟩ := assemble_eq_ok.mp h
  refine ⟨blocks, listing graph blocks slots layout, hbuilt.linear,
    (Graph.linearize_perm hbuilt.linear).1, hbuilt.decodes, ?_, ?_⟩
  · rw [listing, Decoded.lined, Decoded.marked, List.length_map, List.length_map,
      hbuilt.length_raw, hbuilt.resolved.length_eq]
  · intro index instruction d hinstruction hd
    exact hbuilt.carries hinstruction hd

/-- A program for the small machine that branches forward over an instruction with an extension
unit. -/
def branchOver : Graph where
  metadata := { (default : Metadata) with firstLine := 5 }
  isa := .small
  entry := 1
  blocks :=
    [(1, .basic
      { id := 1
        instructions := [.simple 9]
        jump := some { opcode := 110, operand := .label { block := 2, index := 1 } }
        fallthrough := none
        line := some 5 }),
     (2, .basic
      { id := 2
        instructions := [{ opcode := 102, operand := .immediate 300 }, .simple 83]
        jump := none
        fallthrough := none
        line := some 7 })]

/-- The code of `branchOver`. -/
def branchOverCode : Assembly where
  bytecode :=
    { code := [9, 0, 110, 2, 144, 1, 102, 44, 83, 0], firstLine := 5, lineTable := [4, 2] }
  metadata := branchOver.metadata
  stackHeight := none
  passes := 2

theorem branchOver_assemble : branchOver.assemble .default = .ok branchOverCode := by
  have hlinear : branchOver.linearize = .ok branchOver.leaves :=
    Graph.linearize_chain rfl (by decide) ⟨.inl rfl, rfl⟩ rfl
  rw [Graph.assemble, Graph.flatten, hlinear]
  rfl

/-- The four instructions of `branchOver` are read back from its code. -/
theorem branchOver_decodes :
    branchOver.assemble .default = .ok branchOverCode ∧
      ∃ blocks decoded, branchOver.linearize = .ok blocks ∧ blocks.Perm branchOver.leaves ∧
        Decoded.ofBytecode .small branchOverCode.bytecode = .ok decoded ∧
        decoded.length = (blocks.flatMap (·.all)).length ∧
        ∀ index instruction d, (blocks.flatMap (·.all))[index]? = some instruction →
          decoded[index]? = some d →
          Carries branchOver true blocks decoded index instruction d :=
  ⟨branchOver_assemble, assemble_decodes branchOver_assemble⟩

end Assembly
end StackCode
