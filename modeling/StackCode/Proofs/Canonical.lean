import StackCode.Proofs.Assembly.Room

/-!
Canonical bytecode: no branch by a distance, and every instruction, every operand and every line
written as the assembler writes it.  Such bytecode is read and assembled again, but a graph keeps
neither the units at which instructions stood nor a line that starts behind all of them.  It is
reproduced exactly if no code with the same instructions is shorter and no line is lost.
-/

namespace StackCode

open Encoding Outcome LineTable

/-- Bytecode that reads as these instructions and line starts, none of them a branch by a distance,
with as many extension units in front of each instruction as its argument needs, the first index of
every entry that is used, and its line starts in a table of their own. -/
structure Bytecode.Canonical (isa : InstructionSet) (metadata : Metadata) (bytecode : Bytecode)
    (decoded : List Decoded) (starts : List LineStart) : Prop where
  reads : Decoded.ofBytecode isa bytecode = .ok decoded
  lineStarts : bytecode.lineStarts = .ok starts
  absolute : ∀ d ∈ decoded, isa.operandKind d.opcode ≠ .ok .relativeJump
  code : bytecode.code = decoded.flatMap fun d =>
    instruction isa.extension d.opcode (d.argument.getD 0) (extensionCount (d.argument.getD 0))
  entries : ∀ d ∈ decoded, ∀ kind, isa.operandKind d.opcode = .ok kind →
    metadata.FirstEntry (d.argument.getD 0) kind
  lines : encode bytecode.firstLine starts = (bytecode.firstLine, bytecode.lineTable)

/-- Bytecode of which a graph keeps everything: no other code with the same instructions is shorter,
no line starts at the end of the code, and the first line of empty code is that of the metadata. -/
structure Bytecode.Reproducible (isa : InstructionSet) (metadata : Metadata) (bytecode : Bytecode)
    (decoded : List Decoded) (starts : List LineStart) : Prop where
  shortest : ∀ other after, Decoded.ofBytecode isa other = .ok after →
    List.Forall₂ (Assembly.Restates isa decoded after) decoded after →
    bytecode.code.length ≤ other.code.length
  inside : bytecode.code ≠ [] → ∀ start ∈ starts, start.offset < bytecode.code.length
  firstLine : bytecode.code = [] → bytecode.firstLine = metadata.firstLine

namespace Assembly

theorem Built.offsets_eq_places {graph : Graph} {settings : AssemblySettings} {assembly : Assembly}
    {blocks : List BasicBlock} {slots : List Slot} {layout : Layout}
    (h : Built graph settings assembly blocks slots layout) :
    layout.offsets = Decoded.places (listing graph blocks slots layout) := by
  refine Array.toList_inj.mp ?_
  rw [h.offsets_eq, Decoded.places, listing, Decoded.offsets_lined, Decoded.offsets_marked,
    Decoded.stopFrom_lined, Decoded.stopFrom_marked]

/-- The code ends where the last slot does. -/
theorem Built.length_code {graph : Graph} {settings : AssemblySettings} {assembly : Assembly}
    {blocks : List BasicBlock} {slots : List Slot} {layout : Layout}
    (h : Built graph settings assembly blocks slots layout) :
    assembly.bytecode.code.length = 2 * Layout.unitAt layout.offsets slots.length := by
  rw [Decoded.length_of_ofBytecode h.decodes, h.offsets_eq_places, ← h.length_listing,
    Decoded.unitAt_places_length]

theorem Built.unitCount_lt {graph : Graph} {settings : AssemblySettings} {assembly : Assembly}
    {blocks : List BasicBlock} {slots : List Slot} {layout : Layout}
    (h : Built graph settings assembly blocks slots layout) :
    assembly.bytecode.unitCount < 0x100000000 := by
  have hstop := Layout.unitAt_lt h.placed.lt slots.length
  rw [Bytecode.unitCount, h.length_code]
  omega

end Assembly

namespace Bytecode.Canonical

variable {isa : InstructionSet} {metadata : Metadata} {bytecode : Bytecode}
  {decoded : List Decoded} {starts : List LineStart} {graph : Graph} {settings : AssemblySettings}
  {assembly : Assembly} {blocks : List BasicBlock} {slots : List Slot} {layout : Layout}

theorem listing (h : bytecode.Canonical isa metadata decoded starts) :
    Decoded.Listing isa starts decoded := by
  obtain ⟨starts', hstarts, hlisting⟩ := Decoded.listing_of_ofBytecode h.reads
  rwa [Except.ok.inj (h.lineStarts.symm.trans hstarts)]

theorem exists_rebuilt (h : bytecode.Canonical isa metadata decoded starts)
    {granularity : Granularity}
    (hgraph : Graph.ofBytecode isa metadata granularity bytecode = .ok graph) :
    ∃ blocks, Graph.Rebuilt isa metadata decoded graph blocks := by
  obtain ⟨others, hothers, hread⟩ := bind_eq_ok.mp hgraph
  obtain rfl : others = decoded := Except.ok.inj (hothers.symm.trans h.reads)
  exact Graph.rebuilt_of_ofDecoded h.listing.tiled.nodup h.listing.landing hread

/-- A slot carries the argument that was read, as that is the first index of its entry. -/
theorem copies (h : bytecode.Canonical isa metadata decoded starts) {verify : Bool} {slot : Slot}
    {d : Decoded} (hd : d ∈ decoded) (hholds : slot.Holds isa metadata verify decoded d) :
    slot.Copies isa decoded d := by
  have hfolded := Decoded.folded_of_ofBytecode h.reads d hd
  refine ⟨hholds.opcode, hholds.kind, fun hrelative => ?_, fun hplain => ?_, fun hbranch => ?_⟩
  · exact h.absolute d hd (hrelative ▸ hholds.kind)
  · obtain ⟨htarget, operand, hread, hargument, -⟩ := hholds.plain hplain
    have hnone : slot.kind = .none → d.argument = none := fun hkind => by
      rw [hfolded.shape _ hholds.kind, hkind]
      rfl
    have hfirst := Operand.argument_of_first hplain hnone (h.listing.argument_lt d hd) hread
      (h.entries d hd _ hholds.kind) d.opcode verify
    exact ⟨htarget, Except.ok.inj (hargument.symm.trans hfirst)⟩
  · obtain ⟨-, -, index, landing, htarget, hat, hto⟩ := hholds.branch hbranch
    exact ⟨index, landing, htarget, hat, hto⟩

/-- Canonical bytecode is assembled again. -/
theorem exists_built (h : bytecode.Canonical isa metadata decoded starts)
    (hrebuilt : Graph.Rebuilt isa metadata decoded graph blocks)
    (hunits : bytecode.unitCount < 0x100000000)
    (hpasses : 3 * decoded.countP (·.target.isSome) + 2 ≤ settings.passes) :
    ∃ assembly slots layout, Assembly.Built graph settings assembly blocks slots layout ∧
      List.Forall₂ (fun d slot => Slot.Copies isa decoded slot d) decoded slots := by
  obtain ⟨slots, hslots, hholds⟩ := hrebuilt.exists_slots h.listing settings.verify
  have hcopies : List.Forall₂ (fun d slot => Slot.Copies isa decoded slot d) decoded slots :=
    ((List.forall₂_and_left _ _).mpr ⟨fun _ hd => hd, hholds⟩).imp
      fun d slot ⟨hd, hslot⟩ => h.copies hd hslot
  have habsolute := Flat.absolute_of_copies hcopies
  have hconsistent := Layout.consistent_places h.listing.tiled
    (Decoded.folded_of_ofBytecode h.reads) hcopies
  have hroomed := Layout.roomed_iff_consistent.mpr hconsistent
  have hstop : Layout.unitAt (Decoded.places decoded) slots.length < 0x100000000 := by
    rw [← hcopies.length_eq, Decoded.unitAt_places_length]
    have hlength := Decoded.length_of_ofBytecode h.reads
    rw [unitCount] at hunits
    omega
  have hshort := hroomed.index_le slots.length (Nat.le_refl _)
  have hbudget : 3 * Flat.branches slots + 2 ≤ settings.passes := by
    rw [h.listing.branches_of_copies hcopies]
    exact hpasses
  obtain ⟨layout, -, hlayout, -⟩ :=
    (Layout.passable_of_roomed habsolute hroomed hstop).exists_ofSlots habsolute hroomed.range_le
      (by omega) hbudget
  obtain ⟨rfl, rfl, hlinear, hsorted, -, -⟩ := hrebuilt
  obtain ⟨assembly, hbuilt⟩ := Assembly.exists_built hlinear hsorted hslots hlayout
  exact ⟨assembly, slots, layout, hbuilt, hcopies⟩

section Built

variable (h : bytecode.Canonical isa metadata decoded starts)
  (hrebuilt : Graph.Rebuilt isa metadata decoded graph blocks)
  (hbuilt : Assembly.Built graph settings assembly blocks slots layout)
  (hcopies : List.Forall₂ (fun d slot => Slot.Copies isa decoded slot d) decoded slots)
include hbuilt hcopies

/-- No code with the same instructions is shorter than what is assembled. -/
theorem length_le_of_restates (htiled : Decoded.Tiled 0 decoded) {other : Bytecode}
    {after : List Decoded}
    (hother : Decoded.ofBytecode isa other = .ok after)
    (hsame : List.Forall₂ (Assembly.Restates isa decoded after) decoded after) :
    assembly.bytecode.code.length ≤ other.code.length := by
  have hcopies' : List.Forall₂ (fun d slot => Slot.Copies isa after slot d) after slots :=
    forall₂_between hsame hcopies fun d d' hrestates slot _ hcopy => hcopy.restated htiled hrestates
  have habsolute := Flat.absolute_of_copies hcopies
  obtain ⟨starts', -, hlisting⟩ := Decoded.listing_of_ofBytecode hother
  have hconsistent := Layout.consistent_places hlisting.tiled (Decoded.folded_of_ofBytecode hother)
    hcopies'
  have hstop := Layout.ofSlots_le habsolute hconsistent hbuilt.settled slots.length
  rw [hbuilt.length_code, Decoded.length_of_ofBytecode hother]
  rw [← hcopies'.length_eq, Decoded.unitAt_places_length, hcopies'.length_eq] at hstop
  omega

include h hrebuilt

/-- What is assembled has the same instructions, their arguments included. -/
theorem restates : List.Forall₂
    (Assembly.Restates isa decoded (Assembly.listing graph blocks slots layout)) decoded
    (Assembly.listing graph blocks slots layout) := by
  have hagrees := hbuilt.agrees h.listing hrebuilt
  obtain ⟨hlength, hall⟩ := forall₂_iff_getElem?.mp hagrees
  refine forall₂_iff_getElem?.mpr ⟨hlength, fun index d d' hd hd' => ⟨(hall index d d' hd hd').1,
    fun hplain => ?_⟩⟩
  obtain ⟨slot, hslot, hcopy⟩ := exists_of_getElem? hcopies hd
  rw [InstructionSet.isJump_of_operandKind hcopy.kind] at hplain
  obtain ⟨htarget, hargument⟩ := hcopy.plain hplain
  rw [Assembly.getElem?_listing] at hd'
  obtain ⟨source, hsource, rfl⟩ := Option.map_eq_some_iff.mp hd'
  have hreads := ((forall₂_iff_getElem?.mp hbuilt.reads).2 index slot source hslot hsource).2.2
  have hfolded := Decoded.folded_of_ofBytecode h.reads d (List.mem_of_getElem? hd)
  rw [hfolded.shape _ hcopy.kind, ← hargument]
  exact hreads htarget

/-- Instructions at the places they had have the code they had. -/
theorem code_eq (hoffsets : layout.offsets = Decoded.places decoded) :
    assembly.bytecode.code = bytecode.code := by
  have habsolute := Flat.absolute_of_copies hcopies
  rw [hbuilt.bytecode, hbuilt.placed.code_eq _ habsolute, h.code, hoffsets, hrebuilt.isa_eq,
    List.flatMap_def, List.flatMap_def]
  refine congrArg _ (map_eq_of_forall₂ hcopies fun d hd slot hcopy => ?_).symm
  rw [hcopy.argumentIn_places (Decoded.folded_of_ofBytecode h.reads d hd), hcopy.opcode]

end Built

/-- Where no line starts at the end, the lines are written as they were. -/
theorem lines_eq (h : bytecode.Canonical isa metadata decoded starts)
    (hrebuilt : Graph.Rebuilt isa metadata decoded graph blocks)
    (hoffsets : layout.offsets = Decoded.places decoded)
    (hinside : ∀ start ∈ starts, start.offset < bytecode.code.length) :
    encode metadata.firstLine (Assembly.marksOf blocks layout) =
      (bytecode.firstLine, bytecode.lineTable) := by
  have hlength := Decoded.length_of_ofBytecode h.reads
  have hmarks : Assembly.marksOf blocks layout = starts := by
    refine Assembly.marksOf_eq h.listing hrebuilt.lines (by rw [hoffsets, Decoded.places])
      fun start hstart => ?_
    obtain ⟨heven, hland⟩ := h.listing.starting start hstart
    have hlt := hinside start hstart
    rcases hland with hend | hunit
    · omega
    · exact ⟨_, hunit, by omega⟩
  rw [hmarks, ← h.lines]
  obtain ⟨line, rest, rfl⟩ := h.listing.normal.exists_cons
  rfl

theorem decoded_eq_nil (h : bytecode.Canonical isa metadata decoded starts)
    (hcode : bytecode.code = []) : decoded = [] := by
  have hlength := Decoded.length_of_ofBytecode h.reads
  rw [hcode, List.length_nil] at hlength
  refine List.eq_nil_iff_forall_not_mem.mpr fun d hd => ?_
  have hlt := h.listing.tiled.offset_lt_stopFrom d hd
  omega

/-- Only one line starts in empty code. -/
theorem lineTable_eq_nil (h : bytecode.Canonical isa metadata decoded starts)
    (hcode : bytecode.code = []) : bytecode.lineTable = [] := by
  obtain ⟨line, rest, rfl⟩ := h.listing.normal.exists_cons
  have hrest : rest = [] := by
    refine List.eq_nil_iff_forall_not_mem.mpr fun start hstart => ?_
    have hpos : 0 < start.offset :=
      (List.pairwise_cons.mp h.listing.normal.ascending).1 start hstart
    obtain ⟨heven, hland⟩ := h.listing.starting start (List.mem_cons_of_mem _ hstart)
    rw [h.decoded_eq_nil hcode] at hland
    rcases hland with hend | hunit
    · have hhalf : start.offset / 2 = 0 := hend
      omega
    · cases hunit
  have hlines := h.lines
  rw [hrest] at hlines
  exact (congrArg Prod.snd hlines).symm.trans (by simp [encode, stepsFrom, stepsFor])

/-- Empty code is assembled with the first line of the metadata. -/
theorem assemble_nil (h : bytecode.Canonical isa metadata decoded starts)
    (hrebuilt : Graph.Rebuilt isa metadata decoded graph blocks)
    (hbuilt : Assembly.Built graph settings assembly blocks slots layout)
    (hcode : bytecode.code = []) :
    assembly.bytecode = { bytecode with firstLine := metadata.firstLine } := by
  have hnil := h.decoded_eq_nil hcode
  have hmarks : Assembly.marksOf blocks layout = [] := by
    rw [Assembly.marksOf, hrebuilt.lines, hnil, Decoded.activeFrom, List.zip_nil_right]
    rfl
  have hslots : slots = [] := by
    refine List.length_eq_zero_iff.mp ?_
    rw [hbuilt.length_slots, hrebuilt.totalSize, hnil]
    rfl
  rw [hbuilt.bytecode, hmarks, hslots, hrebuilt.metadata_eq, hcode, h.lineTable_eq_nil hcode]
  rfl

/-- Empty code is reproducible exactly if its first line is that of the metadata. -/
theorem reproducible_iff_of_nil (hcode : bytecode.code = []) :
    bytecode.Reproducible isa metadata decoded starts ↔
      bytecode.firstLine = metadata.firstLine := by
  constructor
  · exact fun h => h.firstLine hcode
  · intro hfirst
    exact ⟨fun _ _ _ _ => by rw [hcode]; exact Nat.zero_le _, fun hsome => absurd hcode hsome,
      fun _ => hfirst⟩

section Kept

variable (h : bytecode.Canonical isa metadata decoded starts)
  (hrebuilt : Graph.Rebuilt isa metadata decoded graph blocks)
  (hbuilt : Assembly.Built graph settings assembly blocks slots layout)
  (hcopies : List.Forall₂ (fun d slot => Slot.Copies isa decoded slot d) decoded slots)
include h hbuilt hcopies

/-- Bytecode that is assembled as it was read is the shortest with its instructions, and no line
starts at its end. -/
theorem reproducible_of_eq (hsome : bytecode.code ≠ []) (hsame : assembly.bytecode = bytecode) :
    bytecode.Reproducible isa metadata decoded starts := by
  refine ⟨fun other after hother hrestates => ?_, fun _ start hstart => ?_,
    fun hcode => absurd hcode hsome⟩
  · rw [← hsame]
    exact length_le_of_restates hbuilt hcopies h.listing.tiled hother hrestates
  · have hstarts := hbuilt.lineStarts
    rw [hsame, h.lineStarts, Except.ok.injEq] at hstarts
    obtain ⟨hstop, heven⟩ := hbuilt.stream.length_code
    rw [hsame] at hstop heven
    have hpos := List.length_pos_of_ne_nil hsome
    rcases hbuilt.offset_of_starts start (hstarts ▸ hstart) with hzero | ⟨unit, hunit, hoffset⟩
    · omega
    · obtain ⟨d, hd, rfl⟩ := List.mem_map.mp hunit
      have hlt := hbuilt.stream.tiled.offset_lt_stopFrom d hd
      omega

include hrebuilt

/-- As nothing shorter has the instructions, they are put where they were. -/
theorem eq_of_reproducible (hsome : bytecode.code ≠ [])
    (hreproducible : bytecode.Reproducible isa metadata decoded starts) :
    assembly.bytecode = bytecode := by
  have hreads := hbuilt.decodes
  rw [hrebuilt.isa_eq] at hreads
  have hshort := hreproducible.shortest _ _ hreads (h.restates hrebuilt hbuilt hcopies)
  have hstop : Decoded.stopFrom 0 decoded ≤ Layout.unitAt layout.offsets slots.length := by
    rw [hbuilt.length_code, Decoded.length_of_ofBytecode h.reads] at hshort
    omega
  have hoffsets := Layout.offsets_eq_places h.listing.tiled
    (Decoded.folded_of_ofBytecode h.reads) hcopies hbuilt.settled hstop
  have hlines := h.lines_eq hrebuilt hoffsets (hreproducible.inside hsome)
  have hcode := h.code_eq hrebuilt hbuilt hcopies hoffsets
  rw [hbuilt.bytecode] at hcode ⊢
  rw [hrebuilt.metadata_eq, hlines]
  exact congrArg (Bytecode.mk · bytecode.firstLine bytecode.lineTable) hcode

/-- What is assembled is the bytecode that was read if and only if a graph keeps all of it. -/
theorem assemble_eq_iff :
    assembly.bytecode = bytecode ↔ bytecode.Reproducible isa metadata decoded starts := by
  by_cases hempty : bytecode.code = []
  · rw [h.assemble_nil hrebuilt hbuilt hempty, reproducible_iff_of_nil hempty]
    exact ⟨fun hsame => (congrArg Bytecode.firstLine hsame).symm, fun hfirst => by rw [← hfirst]⟩
  · exact ⟨h.reproducible_of_eq hbuilt hcopies hempty,
      h.eq_of_reproducible hrebuilt hbuilt hcopies hempty⟩

end Kept

/-- Code in which every instruction takes one unit is as short as any other with its
instructions. -/
theorem shortest_of_unitCount (h : bytecode.Canonical isa metadata decoded starts)
    (hplain : bytecode.unitCount = decoded.length) {other : Bytecode} {after : List Decoded}
    (hother : Decoded.ofBytecode isa other = .ok after)
    (hsame : List.Forall₂ (Assembly.Restates isa decoded after) decoded after) :
    bytecode.code.length ≤ other.code.length := by
  obtain ⟨starts', -, hlisting⟩ := Decoded.listing_of_ofBytecode hother
  have hlength := Decoded.length_of_ofBytecode h.reads
  have hmost := hlisting.tiled.add_length_le
  rw [Decoded.length_of_ofBytecode hother]
  rw [unitCount] at hplain
  have hsize := hsame.length_eq
  omega

end Bytecode.Canonical

/-- With three passes for each branch and two more, canonical bytecode in the address space is
assembled again from the graph that it is read into.  The bytecode is reproduced if and only if it
is of that size and a graph keeps all of it. -/
theorem Graph.assemble_canonical {isa : InstructionSet} {metadata : Metadata}
    {granularity : Granularity} {settings : AssemblySettings} {bytecode : Bytecode}
    {decoded : List Decoded} {starts : List LineStart} {graph : Graph}
    (hcanonical : bytecode.Canonical isa metadata decoded starts)
    (hgraph : Graph.ofBytecode isa metadata granularity bytecode = .ok graph)
    (hpasses : 3 * decoded.countP (·.target.isSome) + 2 ≤ settings.passes) :
    (bytecode.unitCount < 0x100000000 → ∃ assembly, graph.assemble settings = .ok assembly) ∧
      ((∃ assembly, graph.assemble settings = .ok assembly ∧ assembly.bytecode = bytecode) ↔
        bytecode.unitCount < 0x100000000 ∧
          bytecode.Reproducible isa metadata decoded starts) := by
  obtain ⟨blocks, hrebuilt⟩ := hcanonical.exists_rebuilt hgraph
  have hassembled : bytecode.unitCount < 0x100000000 →
      ∃ assembly, graph.assemble settings = .ok assembly ∧
        (assembly.bytecode = bytecode ↔ bytecode.Reproducible isa metadata decoded starts) := by
    intro hunits
    obtain ⟨assembly, slots, layout, hbuilt, hcopies⟩ :=
      hcanonical.exists_built hrebuilt hunits hpasses
    exact ⟨assembly, Assembly.assemble_eq_ok.mpr ⟨_, _, _, hbuilt⟩,
      hcanonical.assemble_eq_iff hrebuilt hbuilt hcopies⟩
  refine ⟨fun hunits => ?_, ?_, ?_⟩
  · obtain ⟨assembly, hassemble, -⟩ := hassembled hunits
    exact ⟨assembly, hassemble⟩
  · rintro ⟨assembly, hassemble, hsame⟩
    obtain ⟨_, _, _, hbuilt⟩ := Assembly.assemble_eq_ok.mp hassemble
    have hunits : bytecode.unitCount < 0x100000000 := hsame ▸ hbuilt.unitCount_lt
    obtain ⟨other, hother, hiff⟩ := hassembled hunits
    obtain rfl : assembly = other := Except.ok.inj (hassemble.symm.trans hother)
    exact ⟨hunits, hiff.mp hsame⟩
  · rintro ⟨hunits, hreproducible⟩
    obtain ⟨assembly, hassemble, hiff⟩ := hassembled hunits
    exact ⟨assembly, hassemble, hiff.mpr hreproducible⟩

/-! ### A branch over instructions without argument -/

/-- An instruction of the small machine that takes one unit. -/
def Decoded.nop (unit : Nat) : Decoded :=
  { offset := unit, size := 1, opcode := 9, argument := none, target := none, line := none,
    isTarget := false }

/-- A branch to unit `target`, and `count` instructions without argument behind it. -/
def overNops (target count : Nat) : List Decoded :=
  { offset := 0, size := extensionCount target + 1, opcode := 113, argument := some target,
    target := some target, line := none, isTarget := false } ::
  (List.range' (extensionCount target + 1) count).map Decoded.nop

/-- The bytecode of `overNops`, from line 1 on. -/
def overNopsCode (target count : Nat) (lineTable : List UInt8) : Bytecode :=
  { code := instruction 144 113 target (extensionCount target) ++
      (List.replicate count [9, 0]).flatten
    firstLine := 1
    lineTable }

theorem stream_nops (count : Nat) : ∀ unit,
    Decoded.Stream .small unit (List.replicate count [9, 0]).flatten
      ((List.range' unit count).map Decoded.nop) := by
  induction count with
  | zero => exact fun unit => .nil unit
  | succ count ih =>
    intro unit
    have hread : Decoded.read .small unit (9 :: 0 :: (List.replicate count [9, 0]).flatten) =
      .ok (Decoded.nop unit, (List.replicate count [9, 0]).flatten) := rfl
    exact .cons hread (ih (unit + 1))

/-- A branch forward, with one of the instructions as its target, and a table of its lines. -/
structure OverNops (target count : Nat) (lineTable : List UInt8) (starts : List LineStart) :
    Prop where
  word : target < 0x100000000
  low : extensionCount target < target
  high : target ≤ extensionCount target + count
  decode : decode 1 lineTable = .ok starts
  encode : encode 1 starts = (1, lineTable)
  land : ∀ start ∈ starts, start.offset % 2 = 0 ∧ (start.offset = 0 ∨
    extensionCount target < start.offset / 2 ∧
      start.offset / 2 ≤ extensionCount target + 1 + count)

section OverNops

variable {target count : Nat} {lineTable : List UInt8} {starts : List LineStart}

theorem length_overNopsCode : (overNopsCode target count lineTable).code.length =
    2 * (extensionCount target + 1 + count) := by
  rw [overNopsCode, List.length_append, length_instruction]
  simp
  omega

theorem mem_offsets_overNops {unit : Nat} : unit ∈ (overNops target count).map (·.offset) ↔
    unit = 0 ∨ extensionCount target < unit ∧ unit ≤ extensionCount target + count := by
  rw [overNops, List.map_cons, List.map_map, List.mem_cons, List.mem_map]
  simp [Decoded.nop, List.mem_range'_1]
  omega

/-- What the instructions are read as. -/
def overNopsListing (target count : Nat) (starts : List LineStart) : List Decoded :=
  Decoded.lined starts (Decoded.marked (overNops target count))

theorem flatMap_overNopsListing {β : Type} (f : UInt8 → Option Nat → List β) :
    (overNopsListing target count starts).flatMap (fun d => f d.opcode d.argument) =
      f 113 (some target) ++ (List.replicate count (f 9 none)).flatten := by
  simp only [overNopsListing, Decoded.lined, Decoded.marked, overNops, Decoded.nop,
    List.flatMap_map, List.map_cons, List.flatMap_cons]
  rw [List.flatMap_def, List.map_const', List.length_range']

/-- Each instruction is the branch, or takes one unit. -/
theorem eq_of_mem_overNopsListing {d : Decoded} (hd : d ∈ overNopsListing target count starts) :
    d.opcode = 113 ∧ d.argument = some target ∧ d.target = some target ∨
      d.opcode = 9 ∧ d.argument = none ∧ d.target = none := by
  obtain ⟨m, hm, rfl⟩ := List.mem_map.mp hd
  obtain ⟨r, hr, rfl⟩ := List.mem_map.mp hm
  rcases List.mem_cons.mp hr with rfl | hr
  · exact .inl ⟨rfl, rfl, rfl⟩
  · obtain ⟨unit, -, rfl⟩ := List.mem_map.mp hr
    exact .inr ⟨rfl, rfl, rfl⟩

namespace OverNops

variable (h : OverNops target count lineTable starts)
include h

theorem stream :
    Decoded.Stream .small 0 (overNopsCode target count lineTable).code (overNops target count) := by
  have hread : Decoded.read .small 0 (overNopsCode target count lineTable).code =
      .ok (_, (List.replicate count [9, 0]).flatten) :=
    Decoded.read_eq_ok.mpr ⟨_, Decoded.Group.read_instruction (by decide)
      (extensionCount_le target) (lt_of_extensionCount_le h.word (Nat.le_refl _)) 0 _,
      Decoded.ofGroup_eq_ok.mpr ⟨.absoluteJump, some target, rfl, rfl, rfl⟩⟩
  refine .cons hread ?_
  rw [Decoded.next, Nat.zero_add]
  exact stream_nops count _

theorem reads : Decoded.ofBytecode .small (overNopsCode target count lineTable) =
    .ok (overNopsListing target count starts) := by
  refine Decoded.ofBytecode_eq_ok.mpr ⟨_, starts, h.stream, fun unit hunit => ?_, h.decode,
    fun start hstart => ?_, rfl⟩
  · have htarget : unit = target := by
      simpa [Decoded.targets, overNops, Decoded.nop, List.filterMap_map] using hunit
    rw [htarget]
    exact mem_offsets_overNops.mpr (.inr ⟨h.low, h.high⟩)
  · obtain ⟨heven, hland⟩ := h.land start hstart
    have hstop := h.stream.length_code.1
    rw [length_overNopsCode] at hstop
    refine ⟨heven, ?_⟩
    rw [mem_offsets_overNops, hstop]
    omega

theorem canonical (metadata : Metadata) :
    (overNopsCode target count lineTable).Canonical .small metadata
      (overNopsListing target count starts) starts := by
  refine ⟨h.reads, h.decode, fun d hd => ?_, ?_, fun d hd kind hkind => ?_, h.encode⟩
  · rcases eq_of_mem_overNopsListing hd with ⟨hopcode, -⟩ | ⟨hopcode, -⟩
    · rw [hopcode]
      decide
    · rw [hopcode]
      decide
  · exact (flatMap_overNopsListing fun opcode argument =>
      instruction 144 opcode (argument.getD 0) (extensionCount (argument.getD 0))).symm
  · rcases eq_of_mem_overNopsListing hd with ⟨hopcode, -⟩ | ⟨hopcode, -⟩
    · rw [hopcode] at hkind
      cases hkind
      trivial
    · rw [hopcode] at hkind
      cases hkind
      trivial

theorem exists_graph (metadata : Metadata) (granularity : Granularity) :
    ∃ graph, Graph.ofBytecode .small metadata granularity (overNopsCode target count lineTable) =
      .ok graph := by
  obtain ⟨starts', -, hlisting⟩ := Decoded.listing_of_ofBytecode h.reads
  have hitems : ∀ d ∈ overNopsListing target count starts,
      ∃ item, Graph.Item.Of .small metadata item d := by
    intro d hd
    rcases eq_of_mem_overNopsListing hd with ⟨hopcode, -, htarget⟩ | ⟨hopcode, hnone, -⟩
    · exact ⟨.branch 113 target, .absoluteJump, hopcode ▸ rfl, rfl, hopcode.symm, htarget⟩
    · exact ⟨.plain { opcode := 9, operand := .none }, .none, hopcode ▸ rfl, rfl, hopcode.symm,
        hnone ▸ rfl⟩
  obtain ⟨graph, hgraph⟩ :=
    Graph.ofDecoded_ok granularity hlisting.tiled.nodup hlisting.landing hitems
  exact ⟨graph, bind_eq_ok.mpr ⟨_, h.reads, hgraph⟩⟩

end OverNops

/-- Behind the branch stand instructions that take one unit. -/
theorem getElem?_overNopsListing {index : Nat} (hindex : index < count) :
    ∃ d, (overNopsListing target count starts)[index + 1]? = some d ∧
      d.offset = extensionCount target + 1 + index ∧ d.opcode = 9 ∧ d.argument = none := by
  rw [overNopsListing, Decoded.lined, Decoded.marked, overNops, List.getElem?_map,
    List.getElem?_map, List.getElem?_cons_succ, List.getElem?_map, List.getElem?_range' hindex,
    Nat.one_mul]
  exact ⟨_, rfl, rfl, rfl, rfl⟩

/-- Branches to the same instruction are the same, however many units they take. -/
theorem restates_overNops {target' index : Nat} {starts' : List LineStart} (hindex : index < count)
    (htarget : target = extensionCount target + 1 + index)
    (htarget' : target' = extensionCount target' + 1 + index) :
    List.Forall₂ (Assembly.Restates .small (overNopsListing target count starts)
        (overNopsListing target' count starts'))
      (overNopsListing target count starts) (overNopsListing target' count starts') := by
  have hlength : ∀ target starts, (overNopsListing target count starts).length = count + 1 := by
    intro target starts
    simp [overNopsListing, Decoded.lined, Decoded.marked, overNops]
  refine forall₂_iff_getElem?.mpr ⟨by rw [hlength, hlength], fun place d d' hd hd' => ?_⟩
  cases place with
  | zero =>
    cases hd
    cases hd'
    obtain ⟨landing, hlanding, hto, -⟩ := getElem?_overNopsListing hindex
    obtain ⟨landing', hlanding', hto', -⟩ := getElem?_overNopsListing hindex
    refine ⟨⟨rfl, fun _ => ⟨index + 1, landing, landing', hlanding, hlanding', ?_, ?_⟩⟩, ?_⟩
    · exact congrArg some (htarget.trans hto.symm)
    · exact congrArg some (htarget'.trans hto'.symm)
    · intro hplain
      cases hplain
  | succ place =>
    have hplace : place < count := by
      have hlt := (List.getElem?_eq_some_iff.mp hd).1
      rw [hlength] at hlt
      omega
    obtain ⟨nop, hnop, -, hopcode, hargument⟩ := getElem?_overNopsListing hplace
    obtain ⟨nop', hnop', -, hopcode', hargument'⟩ := getElem?_overNopsListing hplace
    obtain rfl : d = nop := Option.some.inj (hd.symm.trans hnop)
    obtain rfl : d' = nop' := Option.some.inj (hd'.symm.trans hnop')
    refine ⟨⟨hopcode'.trans hopcode.symm, fun hjump => ?_⟩,
      fun _ => hargument'.trans hargument.symm⟩
    rw [hopcode] at hjump
    cases hjump

end OverNops

theorem countP_overNopsListing (target count : Nat) (starts : List LineStart) :
    (overNopsListing target count starts).countP (·.target.isSome) = 1 := by
  rw [overNopsListing, Decoded.lined, Decoded.marked, List.countP_map, List.countP_map, overNops,
    List.countP_cons, List.countP_map]
  simp [Decoded.nop, Function.comp_def]

/-- A branch to the instruction behind it, on which another line starts. -/
theorem overNops_plain :
    OverNops 1 1 [2, 2] [{ offset := 0, line := 1 }, { offset := 2, line := 3 }] :=
  ⟨by decide, by decide, by decide, by decide +kernel, rfl, by decide⟩

/-- That bytecode is reproduced. -/
theorem overNops_reproduced :
    ∃ decoded starts graph assembly,
      (overNopsCode 1 1 [2, 2]).Canonical .small default decoded starts ∧
      Graph.ofBytecode .small default .coarse (overNopsCode 1 1 [2, 2]) = .ok graph ∧
      3 * decoded.countP (·.target.isSome) + 2 ≤ AssemblySettings.strict.passes ∧
      graph.assemble .strict = .ok assembly ∧ assembly.bytecode = overNopsCode 1 1 [2, 2] := by
  have hcanonical := overNops_plain.canonical default
  obtain ⟨graph, hgraph⟩ := overNops_plain.exists_graph default .coarse
  have hpasses : 3 * (overNopsListing 1 1 [{ offset := 0, line := 1 },
      { offset := 2, line := 3 }]).countP (·.target.isSome) + 2 ≤
      AssemblySettings.strict.passes := by
    rw [countP_overNopsListing]
    decide
  obtain ⟨-, hiff⟩ := Graph.assemble_canonical hcanonical hgraph hpasses
  obtain ⟨assembly, hassemble, hsame⟩ := hiff.mpr ⟨by decide,
    fun _ _ => hcanonical.shortest_of_unitCount (by decide), fun _ => by decide, nofun⟩
  exact ⟨_, _, graph, assembly, hcanonical, hgraph, hpasses, hassemble, hsame⟩

/-- Canonical bytecode that is read and assembled again, and is not what it was. -/
def Bytecode.Altered (isa : InstructionSet) (metadata : Metadata) (bytecode : Bytecode) : Prop :=
  ∃ decoded starts graph assembly, bytecode.Canonical isa metadata decoded starts ∧
    Graph.ofBytecode isa metadata .fine bytecode = .ok graph ∧
    graph.assemble .default = .ok assembly ∧ assembly.bytecode ≠ bytecode

theorem Bytecode.Canonical.altered {isa : InstructionSet} {metadata : Metadata}
    {bytecode : Bytecode} {decoded : List Decoded} {starts : List LineStart} {graph : Graph}
    (h : bytecode.Canonical isa metadata decoded starts)
    (hgraph : Graph.ofBytecode isa metadata .fine bytecode = .ok graph)
    (hunits : bytecode.unitCount < 0x100000000) (hbranches : decoded.countP (·.target.isSome) ≤ 10)
    (hlost : ¬ bytecode.Reproducible isa metadata decoded starts) :
    bytecode.Altered isa metadata := by
  obtain ⟨blocks, hrebuilt⟩ := h.exists_rebuilt hgraph
  have hpasses : 3 * decoded.countP (·.target.isSome) + 2 ≤ AssemblySettings.default.passes := by
    show _ ≤ 32
    omega
  obtain ⟨assembly, slots, layout, hbuilt, hcopies⟩ := h.exists_built hrebuilt hunits hpasses
  exact ⟨decoded, starts, graph, assembly, h, hgraph,
    Assembly.assemble_eq_ok.mpr ⟨_, _, _, hbuilt⟩,
    fun hsame => hlost ((h.assemble_eq_iff hrebuilt hbuilt hcopies).mp hsame)⟩

/-- With an extension unit the branch is aimed at unit 256, and so needs it.  Without one the same
instruction stands at unit 255. -/
theorem overNops_extended :
    OverNops 256 255 [] [{ offset := 0, line := 1 }] ∧
      OverNops 255 255 [] [{ offset := 0, line := 1 }] :=
  ⟨⟨by decide, by decide, by decide, by decide +kernel, rfl, by decide⟩,
    ⟨by decide, by decide, by decide, by decide +kernel, rfl, by decide⟩⟩

/-- The last line starts at the end of the code. -/
theorem overNops_trailing :
    OverNops 1 1 [4, 1] [{ offset := 0, line := 1 }, { offset := 4, line := 2 }] :=
  ⟨by decide, by decide, by decide, by decide +kernel, rfl, by decide⟩

/-- Neither an extension unit that only its own branch needs, nor a line at the end of the code, nor
the first line of empty code is kept. -/
theorem overNops_altered :
    (overNopsCode 256 255 []).Altered .small default ∧
      (overNopsCode 1 1 [4, 1]).Altered .small default ∧
      (Bytecode.mk [] 1 []).Altered .small default := by
  refine ⟨?_, ?_, ?_⟩
  · obtain ⟨hextended, hplain⟩ := overNops_extended
    obtain ⟨graph, hgraph⟩ := hextended.exists_graph default .fine
    refine (hextended.canonical default).altered hgraph ?_ ?_ fun hreproducible => ?_
    · rw [Bytecode.unitCount, length_overNopsCode]
      decide
    · rw [countP_overNopsListing]
      decide
    · have hshort := hreproducible.shortest _ _ hplain.reads
        (restates_overNops (by decide : 254 < 255) (by decide) (by decide))
      rw [length_overNopsCode, length_overNopsCode] at hshort
      exact absurd hshort (by decide)
  · obtain ⟨graph, hgraph⟩ := overNops_trailing.exists_graph default .fine
    refine (overNops_trailing.canonical default).altered hgraph ?_ ?_ fun hreproducible => ?_
    · decide
    · rw [countP_overNopsListing]
      decide
    · exact absurd (hreproducible.inside (by decide) { offset := 4, line := 2 } (by decide))
        (by decide)
  · have hreads : Decoded.ofBytecode .small (Bytecode.mk [] 1 []) = .ok [] := by
      refine Decoded.ofBytecode_eq_ok.mpr ⟨[], [{ offset := 0, line := 1 }], .nil 0, nofun,
        by decide +kernel, fun start hstart => ?_, rfl⟩
      rw [List.mem_singleton.mp hstart]
      exact ⟨rfl, .inl rfl⟩
    have hcanonical : (Bytecode.mk [] 1 []).Canonical .small default []
        [{ offset := 0, line := 1 }] :=
      ⟨hreads, by decide +kernel, nofun, rfl, nofun, rfl⟩
    obtain ⟨graph, hgraph⟩ :=
      @Graph.ofDecoded_ok .small default .fine [] List.nodup_nil nofun nofun
    refine hcanonical.altered (bind_eq_ok.mpr ⟨_, hreads, hgraph⟩) (by decide) (by decide)
      fun hreproducible => ?_
    exact absurd (hreproducible.firstLine rfl) (by decide)

end StackCode
