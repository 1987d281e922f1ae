import StackCode.Proofs.Assembly.Faithful
import StackCode.Proofs.Assembly.Rebuilt

/-!
Assembling again.  What the assembler wrote is read into a graph with other blocks and labels, but
its slots are alike, and slots that are alike have one layout.
-/

namespace StackCode
namespace Assembly

open Outcome LineTable

variable {graph : Graph} {settings : AssemblySettings} {assembly : Assembly}
  {blocks : List BasicBlock} {slots : List Slot} {layout : Layout}

theorem ofArgument_metadata {graph : Graph} {settings : AssemblySettings} {slots : List Slot}
    {assembly : Assembly} (h : Measured graph settings slots assembly) (kind : OperandKind)
    (argument : Option Nat) :
    Operand.ofArgument kind argument assembly.metadata =
      Operand.ofArgument kind argument graph.metadata := by
  rw [Measured] at h
  split at h
  · obtain ⟨peak, -, hmetadata, -⟩ := h
    rw [hmetadata]
    exact Operand.ofArgument_stackSize kind argument _ _
  · rw [h.1]

theorem argument_metadata (h : Measured graph settings slots assembly) (operand : Operand)
    (opcode : UInt8) (kind : OperandKind) (strict : Bool) :
    operand.argument opcode kind assembly.metadata strict =
      operand.argument opcode kind graph.metadata strict := by
  rw [Measured] at h
  split at h
  · obtain ⟨peak, -, hmetadata, -⟩ := h
    rw [hmetadata]
    exact Operand.argument_stackSize operand opcode kind _ strict _
  · rw [h.1]

theorem firstLine_metadata (h : Measured graph settings slots assembly) :
    assembly.metadata.firstLine = graph.metadata.firstLine := by
  rw [Measured] at h
  split at h
  · obtain ⟨peak, -, hmetadata, -⟩ := h
    rw [hmetadata]
  · rw [h.1]

/-- The slot that an instruction was assembled from. -/
theorem Built.slot_at (h : Built graph settings assembly blocks slots layout) {index : Nat}
    {d : Decoded} (hd : (listing graph blocks slots layout)[index]? = some d) :
    ∃ slot, slots[index]? = some slot ∧ slot.instruction.opcode = d.opcode ∧
      graph.isa.operandKind d.opcode = .ok slot.kind ∧
      d.target =
        (slot.target.bind fun target => (listing graph blocks slots layout)[target]?).map
          (·.offset) := by
  have hat := getElem?_listing graph blocks slots layout index
  rw [hd] at hat
  obtain ⟨source, hsource, rfl⟩ := Option.map_eq_some_iff.mp hat.symm
  obtain ⟨slot, hslot, hopcode, htarget, -⟩ := exists_of_getElem? h.reads.flip hsource
  obtain ⟨instruction, -, hresolved⟩ :=
    exists_of_mem_right h.resolved (List.mem_of_getElem? hslot)
  refine ⟨slot, hslot, hopcode.symm, hopcode ▸ hresolved.fits.kind, ?_⟩
  show source.target = _
  rw [htarget]
  cases slot.target with
  | none => rfl
  | some target =>
    rw [Option.bind_some, Option.bind_some, getElem?_listing, Option.map_map]
    rfl

/-- An instruction without a branch is read with an operand that is encoded in the same way. -/
theorem Built.reread (h : Built graph settings assembly blocks slots layout)
    (hindexed : graph.metadata.Indexed) (hverify : settings.verify = true) {index : Nat}
    {slot : Slot} {d : Decoded} (hslot : slots[index]? = some slot)
    (hd : (listing graph blocks slots layout)[index]? = some d)
    (hplain : slot.kind.isJump = false) :
    slot.target = none ∧ ∃ operand,
      Operand.ofArgument slot.kind d.argument assembly.metadata = .ok operand ∧
        operand.argument slot.instruction.opcode slot.kind assembly.metadata true =
          .ok slot.argument ∧
        operand.immediate?.getD 0 = slot.instruction.operand.immediate?.getD 0 := by
  obtain ⟨instruction, -, hresolved⟩ :=
    exists_of_mem_right h.resolved (List.mem_of_getElem? hslot)
  obtain ⟨source, hsource, -, -, hargument⟩ := exists_of_getElem? h.reads hslot
  rw [getElem?_listing, hsource, Option.map_some, Option.some.injEq] at hd
  obtain ⟨-, htarget, hencoded⟩ := hresolved.plain hplain
  rw [hverify, ← hresolved.same] at hencoded
  have hread : d.argument = Operand.readBack slot.kind slot.argument := by
    rw [← hd]
    exact hargument htarget
  obtain ⟨operand, hoperand, hagain, hsame⟩ :=
    Operand.argument_readBack hindexed hplain hencoded
  refine ⟨htarget, operand, ?_, ?_, hsame⟩
  · rw [ofArgument_metadata h.measured, hread]
    exact hoperand
  · rw [argument_metadata h.measured]
    exact hagain

/-- Whatever was assembled can be read into a graph. -/
theorem Built.ofBytecode_ok (h : Built graph settings assembly blocks slots layout)
    (hindexed : graph.metadata.Indexed) (hverify : settings.verify = true)
    (granularity : Granularity) :
    ∃ again, Graph.ofBytecode graph.isa assembly.metadata granularity assembly.bytecode =
        .ok again ∧
      Graph.ofDecoded graph.isa assembly.metadata granularity
        (listing graph blocks slots layout) = .ok again := by
  obtain ⟨starts, -, hlisting⟩ := Decoded.listing_of_ofBytecode h.decodes
  have hitems : ∀ d ∈ listing graph blocks slots layout,
      ∃ item, Graph.Item.Of graph.isa assembly.metadata item d := by
    intro d hd
    obtain ⟨index, hindex⟩ := List.getElem?_of_mem hd
    obtain ⟨slot, hslot, hopcode, hkind, -⟩ := h.slot_at hindex
    cases hplain : slot.kind.isJump with
    | false =>
      obtain ⟨-, operand, hoperand, -⟩ := h.reread hindexed hverify hslot hindex hplain
      exact ⟨.plain { opcode := d.opcode, operand }, slot.kind, hkind, hplain, rfl, hoperand⟩
    | true =>
      obtain ⟨kind, hkind', hsome⟩ := hlisting.kind d hd
      rw [← Except.ok.inj (hkind.symm.trans hkind'), hplain] at hsome
      obtain ⟨target, htarget⟩ := Option.isSome_iff_exists.mp hsome
      exact ⟨.branch d.opcode target, slot.kind, hkind, hplain, rfl, htarget⟩
  obtain ⟨again, hagain⟩ :=
    Graph.ofDecoded_ok granularity hlisting.tiled.nodup hlisting.landing hitems
  exact ⟨again, bind_eq_ok.mpr ⟨_, h.decodes, hagain⟩, hagain⟩

/-- The slots of an assembly stand for the instructions that are read back. -/
theorem Built.holds (h : Built graph settings assembly blocks slots layout)
    (hindexed : graph.metadata.Indexed) (hverify : settings.verify = true) :
    List.Forall₂ (fun d slot => Slot.Holds graph.isa assembly.metadata settings.verify
      (listing graph blocks slots layout) slot d) (listing graph blocks slots layout) slots := by
  refine forall₂_iff_getElem?.mpr ⟨h.length_listing, fun index d slot hd hslot => ?_⟩
  obtain ⟨slot', hslot', hopcode, hkind, htarget⟩ := h.slot_at hd
  obtain rfl : slot = slot' := Option.some.inj (hslot.symm.trans hslot')
  refine ⟨hopcode, hkind, fun hplain => ?_, fun hjump => ?_⟩
  · obtain ⟨hnone, operand, hread, hencoded, himmediate⟩ :=
      h.reread hindexed hverify hslot hd hplain
    rw [hopcode] at hencoded
    rw [hverify]
    exact ⟨hnone, operand, hread, hencoded, himmediate.symm⟩
  · obtain ⟨source, -, hresolved⟩ := exists_of_mem_right h.resolved (List.mem_of_getElem? hslot)
    obtain ⟨hargument, label, target, hlabel, hsome, -, hlt⟩ := hresolved.branch hjump
    rw [← hresolved.same] at hlabel
    rw [← h.length_slots, ← h.length_listing] at hlt
    have hlanding := List.getElem?_eq_getElem hlt
    rw [hsome, Option.bind_some, hlanding] at htarget
    refine ⟨hargument, ?_, target, _, hsome, hlanding, htarget⟩
    rw [immediate?_of_label hlabel]
    rfl

/-- The instructions of the rebuilt graph become slots that are alike. -/
theorem Built.slots_again (h : Built graph settings assembly blocks slots layout)
    (hindexed : graph.metadata.Indexed) (hverify : settings.verify = true) {again : Graph}
    {blocks' : List BasicBlock}
    (hrebuilt : Graph.Rebuilt graph.isa assembly.metadata (listing graph blocks slots layout) again
      blocks') :
    ∃ slots', List.Forall₂ (Flat.Resolved graph.isa assembly.metadata settings.verify blocks')
        (blocks'.flatMap (·.all)) slots' ∧
      List.Forall₂ (Slot.Alike graph.isa) slots slots' := by
  obtain ⟨starts, -, hlisting⟩ := Decoded.listing_of_ofBytecode h.decodes
  obtain ⟨slots', hslots', hholds⟩ := hrebuilt.exists_slots hlisting settings.verify
  exact ⟨slots', hslots',
    alike_of_holds hlisting.tiled (h.holds hindexed hverify) hholds⟩

/-! ### Lines -/

/-- Blocks on the lines that were read are given the starts that were read, where they stand at the
instructions again and every line starts at one of these. -/
theorem marksOf_eq {isa : InstructionSet} {decoded : List Decoded} {starts : List LineStart}
    (hlisting : Decoded.Listing isa starts decoded)
    (hlines : Flat.tags blocks = Decoded.activeFrom none decoded)
    (hoffsets : layout.offsets.toList =
      decoded.map (·.offset) ++ [Decoded.stopFrom 0 decoded])
    (hunits : ∀ start ∈ starts, ∃ unit ∈ decoded.map (·.offset), start.offset = 2 * unit) :
    marksOf blocks layout = starts := by
  have htags : Flat.tags blocks = (decoded.map (·.offset)).map fun unit =>
      (lineAt starts (2 * unit)).or none := by
    rw [hlines, hlisting.activeFrom_eq, List.map_map]
    simp
  have hzip : layout.offsets.toList.zip (Flat.tags blocks) =
      (decoded.map (·.offset)).map fun unit => (unit, (lineAt starts (2 * unit)).or none) := by
    rw [hoffsets, htags, List.map_prod_left_eq_zip,
      ← List.append_nil (List.map _ (List.map _ _)), List.zip_append (by simp)]
    simp
  rw [marksOf, hzip]
  exact Flat.marks_lineAt _ _ none hlisting.tiled.pairwise hlisting.normal.ascending
    hlisting.normal.changing hunits (by simp)

/-- The rebuilt graph is assembled with the line starts that were read. -/
theorem Built.marks_again (h : Built graph settings assembly blocks slots layout)
    {blocks' : List BasicBlock} (hsome : slots ≠ [])
    (hlines : Flat.tags blocks' =
      Decoded.activeFrom none (listing graph blocks slots layout)) :
    marksOf blocks' layout = startsOf graph blocks layout := by
  obtain ⟨starts, hstarts, hlisting⟩ := Decoded.listing_of_ofBytecode h.decodes
  obtain rfl : startsOf graph blocks layout = starts :=
    Except.ok.inj (h.lineStarts.symm.trans hstarts)
  have hoffsets : (listing graph blocks slots layout).map (·.offset) =
      (raw slots layout).map (·.offset) := by
    rw [listing, Decoded.offsets_lined, Decoded.offsets_marked]
  have hstop : Decoded.stopFrom 0 (listing graph blocks slots layout) =
      Decoded.stopFrom 0 (raw slots layout) := by
    rw [listing, Decoded.stopFrom_lined, Decoded.stopFrom_marked]
  refine marksOf_eq hlisting hlines (by rw [hoffsets, hstop, h.offsets_eq]) fun start hstart => ?_
  rw [hoffsets]
  rcases h.offset_of_starts start hstart with hzero | hunit
  · rcases h.zero_mem with hnone | hmem
    · have hlength := h.length_raw
      rw [hnone] at hlength
      exact absurd (List.length_eq_zero_iff.mp hlength.symm) hsome
    · exact ⟨0, hmem, hzero⟩
  · exact hunit

/-- Lines are written again as they were read. -/
theorem Built.lineTable_again (h : Built graph settings assembly blocks slots layout)
    {blocks' : List BasicBlock} {slots' : List Slot} {assembly' : Assembly} {again : Graph}
    (hagain : Built again settings assembly' blocks' slots' layout)
    (hfirst : again.metadata.firstLine = graph.metadata.firstLine)
    (hlines : Flat.tags blocks' =
      Decoded.activeFrom none (listing graph blocks slots layout)) :
    assembly'.bytecode.firstLine = assembly.bytecode.firstLine ∧
      assembly'.bytecode.lineStarts = assembly.bytecode.lineStarts := by
  rw [hagain.lineStarts, h.lineStarts, hagain.bytecode, h.bytecode, startsOf, hfirst]
  by_cases hsome : slots = []
  · have hraw : raw slots layout = [] :=
      List.length_eq_zero_iff.mp (by rw [h.length_raw, hsome]; rfl)
    have hnone : marksOf blocks layout = [] := by
      rw [marksOf, h.zip_tags, hraw]
      rfl
    have hnone' : marksOf blocks' layout = [] := by
      rw [marksOf, hlines, listing, hraw]
      simp [Decoded.marked, Decoded.lined, Decoded.activeFrom, Flat.marks]
    rw [startsOf, hnone, hnone']
    exact ⟨rfl, rfl⟩
  · have hnormal : Normal (startsOf graph blocks layout) := normal_of_decode h.lineStarts
    have hwritten : written graph.metadata.firstLine (startsOf graph blocks layout) =
        startsOf graph blocks layout :=
      Except.ok.inj ((decode_written _ (hnormal.ascending.imp Nat.le_of_lt)).symm.trans
        (hnormal.decode_encode _))
    rw [h.marks_again hsome hlines, hwritten]
    exact ⟨encode_written_fst _ h.pairwise_marks, rfl⟩

/-- Slots that are alike measure the same stack height. -/
theorem measured_again {graph again : Graph} {settings : AssemblySettings}
    {slots slots' : List Slot} {assembly : Assembly} (h : Measured graph settings slots assembly)
    (hisa : again.isa = graph.isa) (halike : List.Forall₂ (Slot.Alike graph.isa) slots slots') :
    ∃ metadata, ∀ bytecode passes, Measured again settings slots'
      { bytecode, metadata, stackHeight := assembly.stackHeight, passes } := by
  rw [Measured] at h
  by_cases hmeasure : settings.measureStack = true
  · rw [if_pos hmeasure] at h
    obtain ⟨peak, hpeak, -, hheight⟩ := h
    refine ⟨{ again.metadata with
      stackSize := max again.metadata.stackSize (saturateToWord peak) }, fun bytecode passes => ?_⟩
    rw [Measured, if_pos hmeasure, hisa, StackHeight.peak_alike halike]
    exact ⟨peak, hpeak, rfl, hheight⟩
  · rw [if_neg hmeasure] at h
    refine ⟨again.metadata, fun bytecode passes => ?_⟩
    rw [Measured, if_neg hmeasure]
    exact ⟨rfl, h.2⟩

/-- What was assembled with care is read into a graph of which the same slots are assembled. -/
theorem Built.again (h : Built graph settings assembly blocks slots layout)
    (hindexed : graph.metadata.Indexed) (hverify : settings.verify = true)
    (granularity : Granularity) :
    ∃ again assembly' blocks' slots',
      Graph.ofBytecode graph.isa assembly.metadata granularity assembly.bytecode = .ok again ∧
      Graph.Rebuilt graph.isa assembly.metadata (listing graph blocks slots layout) again blocks' ∧
      Built again settings assembly' blocks' slots' layout ∧
      List.Forall₂ (Slot.Alike graph.isa) slots slots' ∧
      assembly'.stackHeight = assembly.stackHeight := by
  obtain ⟨starts, -, hlisting⟩ := Decoded.listing_of_ofBytecode h.decodes
  obtain ⟨again, hread, hgraph⟩ := h.ofBytecode_ok hindexed hverify granularity
  obtain ⟨blocks', hrebuilt⟩ :=
    Graph.rebuilt_of_ofDecoded hlisting.tiled.nodup hlisting.landing hgraph
  obtain ⟨slots', hslots', halike⟩ := h.slots_again hindexed hverify hrebuilt
  have hisa := hrebuilt.isa_eq
  have hlayout : Layout.ofSlots slots' settings.passes = .ok layout :=
    (Layout.ofSlots_alike halike _).trans h.settled
  obtain ⟨metadata, hmeasured⟩ := measured_again h.measured hisa halike
  refine ⟨again, _, blocks', slots', hread, hrebuilt,
    ⟨hrebuilt.linear, ?_, ?_, hlayout, rfl, rfl, hmeasured _ _⟩, halike, rfl⟩
  · rw [hisa]
    exact hrebuilt.sorted
  · rw [hisa, hrebuilt.metadata_eq]
    exact hslots'

end Assembly
end StackCode
