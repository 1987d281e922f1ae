import StackCode.Proofs.Assembly.Again

/-!
Round trips.  Code that is read into a graph and assembled again has the same instructions on the
same lines, and what the assembler wrote is written again in the same way.
-/

namespace StackCode

open Outcome LineTable

/-! ### Reading a listing -/

namespace Decoded

theorem Listing.isTarget_iff {isa : InstructionSet} {starts : List LineStart}
    {decoded : List Decoded} (h : Listing isa starts decoded) {d : Decoded} (hd : d ∈ decoded) :
    d.isTarget = true ↔ ∃ other ∈ decoded, other.target = some d.offset := by
  rw [h.isTarget d hd, decide_eq_true_eq, mem_targets]

/-- Some line is active at every instruction. -/
theorem Listing.lineAt_isSome {isa : InstructionSet} {starts : List LineStart}
    {decoded : List Decoded} (h : Listing isa starts decoded) (byte : Nat) :
    ∃ line, lineAt starts byte = some line := by
  obtain ⟨first, rest, rfl⟩ := h.normal.exists_cons
  rw [lineAt_cons, if_pos (Nat.zero_le byte)]
  cases lineAt rest byte with
  | none => exact ⟨_, rfl⟩
  | some line => exact ⟨_, rfl⟩

theorem Listing.isJump_of_target {isa : InstructionSet} {starts : List LineStart}
    {decoded : List Decoded} (h : Listing isa starts decoded) {d : Decoded} (hd : d ∈ decoded)
    {unit : Nat} (htarget : d.target = some unit) : isa.isJump d.opcode = true := by
  obtain ⟨kind, hkind, hjump⟩ := h.kind d hd
  rw [InstructionSet.isJump_of_operandKind hkind, ← hjump, htarget]
  rfl

end Decoded

/-! ### Code to code -/

namespace Assembly

/-- Two instructions that mean the same, each in its own code. -/
structure Agrees (isa : InstructionSet) (before after : List Decoded) (d d' : Decoded) : Prop where
  opcode : d'.opcode = d.opcode
  branch : isa.isJump d.opcode = true → ∃ (index : Nat) (landing landing' : Decoded),
    before[index]? = some landing ∧ after[index]? = some landing' ∧
      d.target = some landing.offset ∧ d'.target = some landing'.offset

/-- Where all instructions agree, the same ones are branched to. -/
theorem isTarget_of_agrees {isa : InstructionSet} {starts starts' : List LineStart}
    {before after : List Decoded} (hbefore : Decoded.Listing isa starts before)
    (hafter : Decoded.Listing isa starts' after)
    (hagree : List.Forall₂ (Agrees isa before after) before after) {index : Nat} {d d' : Decoded}
    (hd : before[index]? = some d) (hd' : after[index]? = some d') :
    d'.isTarget = d.isTarget := by
  rw [Bool.eq_iff_iff, hbefore.isTarget_iff (List.mem_of_getElem? hd),
    hafter.isTarget_iff (List.mem_of_getElem? hd')]
  constructor
  · rintro ⟨other', hother', htarget'⟩
    obtain ⟨other, hother, hopcode, hbranch⟩ := exists_of_mem_right hagree hother'
    have hjump := hafter.isJump_of_target hother' htarget'
    obtain ⟨place, landing, landing', hat, hat', hto, hto'⟩ := hbranch (hopcode ▸ hjump)
    rw [htarget', Option.some.injEq] at hto'
    have hplace : place = index := hafter.tiled.index_eq hat' hd' hto'.symm
    rw [hplace, hd, Option.some.injEq] at hat
    exact ⟨other, hother, hat ▸ hto⟩
  · rintro ⟨other, hother, htarget⟩
    obtain ⟨other', hother', -, hbranch⟩ := exists_of_mem hagree hother
    have hjump := hbefore.isJump_of_target hother htarget
    obtain ⟨place, landing, landing', hat, hat', hto, hto'⟩ := hbranch hjump
    rw [htarget, Option.some.injEq] at hto
    have hplace : place = index := hbefore.tiled.index_eq hat hd hto.symm
    rw [hplace, hd', Option.some.injEq] at hat'
    exact ⟨other', hother', hat' ▸ hto'⟩

/-- An instruction lies on the line of its block. -/
theorem Built.lineAt_eq {graph : Graph} {settings : AssemblySettings} {assembly : Assembly}
    {blocks : List BasicBlock} {slots : List Slot} {layout : Layout}
    (h : Built graph settings assembly blocks slots layout) {index : Nat} {d : Decoded}
    {line : UInt32} (hd : (raw slots layout)[index]? = some d)
    (htag : (Flat.tags blocks)[index]? = some (some line)) :
    lineAt (startsOf graph blocks layout) (2 * d.offset) = some line := by
  obtain ⟨hlt, htag⟩ := List.getElem?_eq_some_iff.mp htag
  rw [h.lineAt_offset hd, List.take_add_one, List.getElem?_eq_getElem hlt, htag,
    Flat.lastTag_append]
  rfl

/-- What a round trip keeps of an instruction. -/
structure Kept (isa : InstructionSet) (metadata metadata' : Metadata)
    (starts starts' : List LineStart) (before after : List Decoded) (d d' : Decoded) : Prop
    extends Agrees isa before after d d' where
  operand : ∀ kind, isa.operandKind d.opcode = .ok kind → kind.isJump = false →
    ∃ operand, Operand.ofArgument kind d.argument metadata = .ok operand ∧
      Operand.ofArgument kind d'.argument metadata' = .ok operand
  isTarget : d'.isTarget = d.isTarget
  line : lineAt starts' (2 * d'.offset) = lineAt starts (2 * d.offset)

/-- Code that was read into a graph is assembled to the same instructions. -/
theorem Built.agrees {isa : InstructionSet} {metadata : Metadata} {settings : AssemblySettings}
    {graph : Graph} {assembly : Assembly} {blocks : List BasicBlock} {slots : List Slot}
    {layout : Layout} {starts : List LineStart} {before : List Decoded}
    (hbefore : Decoded.Listing isa starts before)
    (hrebuilt : Graph.Rebuilt isa metadata before graph blocks)
    (h : Built graph settings assembly blocks slots layout) :
    List.Forall₂ (fun d d' => Agrees isa before (listing graph blocks slots layout) d d' ∧
        ∀ kind, isa.operandKind d.opcode = .ok kind → kind.isJump = false →
          ∃ operand, Operand.ofArgument kind d.argument metadata = .ok operand ∧
            Operand.ofArgument kind d'.argument metadata = .ok operand)
      before (listing graph blocks slots layout) := by
  have hlength : before.length = (listing graph blocks slots layout).length := by
    rw [h.length_listing, ← h.resolved.length_eq, hrebuilt.restores.length_eq]
  obtain ⟨rfl, rfl, -, -, hrestores, -⟩ := hrebuilt
  refine forall₂_iff_getElem?.mpr ⟨hlength, fun index d d' hd hd' => ?_⟩
  obtain ⟨instruction, hinstruction, hrestored⟩ := exists_of_getElem? hrestores.flip hd
  have hcarries := h.carries hinstruction hd'
  obtain ⟨kind, hkind, -⟩ := hbefore.kind d (List.mem_of_getElem? hd)
  refine ⟨⟨hcarries.opcode.trans hrestored.opcode, fun hjump => ?_⟩, ?_⟩
  · have hbranch := hcarries.branch (by rwa [hrestored.opcode])
    obtain ⟨label, target, landing', hlabel, hnames, hat', hto'⟩ := hbranch
    rw [InstructionSet.isJump_of_operandKind hkind] at hjump
    obtain ⟨label', index', landing, hoperand, hnames', hat, hto⟩ :=
      hrestored.branch kind hkind hjump
    have hsame : label = label' := by
      rw [Instruction.label?, hoperand] at hlabel
      exact (Option.some.inj hlabel).symm
    have htarget : target = index' := hnames.unique h.nodup (hsame ▸ hnames')
    exact ⟨index', landing, landing', hat, htarget ▸ hat', hto, hto'⟩
  · intro kind hkind hplain
    have hread := hrestored.plain kind hkind hplain
    refine ⟨instruction.operand, hread, ?_⟩
    rw [← hrestored.opcode] at hkind
    obtain ⟨-, hargument⟩ := hcarries.plain kind hkind hplain
    by_cases hnone : kind = .none
    · rw [hnone] at hread ⊢
      exact hread
    · obtain ⟨argument, hencoded, hsome⟩ := hargument hnone
      have hagain := Operand.ofArgument_readBack
        (hbefore.argument_lt d (List.mem_of_getElem? hd)) hread hencoded
      rwa [Operand.readBack, if_neg hnone, ← hsome] at hagain

/-- Code that is read into a graph and assembled again, without a change in between, keeps its
instructions: their number, their opcodes and operands, where they branch to, and their lines. -/
theorem assemble_ofBytecode {isa : InstructionSet} {metadata : Metadata}
    {granularity : Granularity} {settings : AssemblySettings} {bytecode : Bytecode}
    {graph : Graph} {assembly : Assembly}
    (hread : Graph.ofBytecode isa metadata granularity bytecode = .ok graph)
    (hassemble : graph.assemble settings = .ok assembly) :
    ∃ before after starts starts', Decoded.ofBytecode isa bytecode = .ok before ∧
      Decoded.ofBytecode isa assembly.bytecode = .ok after ∧ bytecode.lineStarts = .ok starts ∧
      assembly.bytecode.lineStarts = .ok starts' ∧
      List.Forall₂ (Kept isa metadata assembly.metadata starts starts' before after)
        before after := by
  obtain ⟨before, hdecoded, hgraph⟩ := bind_eq_ok.mp hread
  obtain ⟨starts, hstarts, hbefore⟩ := Decoded.listing_of_ofBytecode hdecoded
  obtain ⟨blocks, hrebuilt⟩ :=
    Graph.rebuilt_of_ofDecoded hbefore.tiled.nodup hbefore.landing hgraph
  obtain ⟨blocks', slots, layout, hbuilt⟩ := assemble_eq_ok.mp hassemble
  obtain rfl : blocks' = blocks := Except.ok.inj (hbuilt.linear.symm.trans hrebuilt.linear)
  have hafter := hbuilt.decodes
  rw [hrebuilt.isa_eq] at hafter
  obtain ⟨starts', hstarts', hlisting⟩ := Decoded.listing_of_ofBytecode hafter
  refine ⟨before, _, starts, starts', hdecoded, hafter, hstarts, hstarts', ?_⟩
  have hboth := hbuilt.agrees hbefore hrebuilt
  have hagree := hboth.imp fun d d' h => h.1
  obtain ⟨hlength, hall⟩ := forall₂_iff_getElem?.mp hboth
  refine forall₂_iff_getElem?.mpr ⟨hlength, fun index d d' hd hd' => ?_⟩
  obtain ⟨hagrees, hoperand⟩ := hall index d d' hd hd'
  refine ⟨hagrees, fun kind hkind hplain => ?_,
    isTarget_of_agrees hbefore hlisting hagree hd hd', ?_⟩
  · rw [ofArgument_metadata hbuilt.measured, hrebuilt.metadata_eq]
    exact hoperand kind hkind hplain
  · obtain ⟨line, hline⟩ := hbefore.lineAt_isSome (2 * d.offset)
    have htag : (Flat.tags blocks')[index]? = some (some line) := by
      rw [hrebuilt.lines, hbefore.activeFrom_eq, List.getElem?_map, hd, Option.map_some, hline]
    rw [getElem?_listing] at hd'
    obtain ⟨source, hsource, rfl⟩ := Option.map_eq_some_iff.mp hd'
    obtain rfl : startsOf graph blocks' layout = starts' :=
      Except.ok.inj (hbuilt.lineStarts.symm.trans hstarts')
    have hactive := hbuilt.lineAt_eq hsource htag
    rw [hline]
    exact hactive

theorem branchOver_indexed : branchOver.metadata.Indexed :=
  ⟨by decide, by decide, by decide, by decide⟩

/-- The code of `branchOver` makes a round trip. -/
theorem branchOver_kept :
    ∃ graph assembly,
      Graph.ofBytecode .small branchOver.metadata .fine branchOverCode.bytecode = .ok graph ∧
      graph.assemble .default = .ok assembly ∧
      ∃ before after starts starts',
        Decoded.ofBytecode .small branchOverCode.bytecode = .ok before ∧
        Decoded.ofBytecode .small assembly.bytecode = .ok after ∧
        branchOverCode.bytecode.lineStarts = .ok starts ∧
        assembly.bytecode.lineStarts = .ok starts' ∧
        List.Forall₂ (Kept .small branchOver.metadata assembly.metadata starts starts' before after)
          before after := by
  obtain ⟨blocks, slots, layout, hbuilt⟩ := assemble_eq_ok.mp branchOver_assemble
  obtain ⟨graph, assembly, blocks', slots', hread, -, hbuilt', -⟩ :=
    hbuilt.again branchOver_indexed rfl .fine
  have hassemble := assemble_eq_ok.mpr ⟨_, _, _, hbuilt'⟩
  exact ⟨graph, assembly, hread, hassemble, assemble_ofBytecode hread hassemble⟩

/-! ### Assembler output -/

/-- What the assembler wrote is read into a graph that is assembled in the same way. -/
theorem assemble_again {graph : Graph} {settings : AssemblySettings} {assembly : Assembly}
    (hindexed : graph.metadata.Indexed) (hverify : settings.verify = true)
    (h : graph.assemble settings = .ok assembly) (granularity : Granularity) :
    ∃ again assembly',
      Graph.ofBytecode graph.isa assembly.metadata granularity assembly.bytecode = .ok again ∧
      again.assemble settings = .ok assembly' ∧
      assembly'.bytecode.code = assembly.bytecode.code ∧
      assembly'.bytecode.firstLine = assembly.bytecode.firstLine ∧
      assembly'.bytecode.lineStarts = assembly.bytecode.lineStarts ∧
      assembly'.passes = assembly.passes ∧ assembly'.stackHeight = assembly.stackHeight := by
  obtain ⟨blocks, slots, layout, hbuilt⟩ := assemble_eq_ok.mp h
  obtain ⟨again, assembly', blocks', slots', hread, hrebuilt, hbuilt', halike, hheight⟩ :=
    hbuilt.again hindexed hverify granularity
  have hfirst : again.metadata.firstLine = graph.metadata.firstLine := by
    rw [hrebuilt.metadata_eq, firstLine_metadata hbuilt.measured]
  obtain ⟨hline, hstarts⟩ := hbuilt.lineTable_again hbuilt' hfirst hrebuilt.lines
  refine ⟨again, assembly', hread, assemble_eq_ok.mpr ⟨_, _, _, hbuilt'⟩, ?_, hline, hstarts, ?_,
    hheight⟩
  · rw [hbuilt'.bytecode, hbuilt.bytecode, hrebuilt.isa_eq]
    exact Layout.code_alike halike _ _
  · rw [hbuilt'.passes, hbuilt.passes]

/-- `branchOver` is assembled twice, the second time into larger blocks. -/
theorem branchOver_again :
    branchOver.metadata.Indexed ∧ AssemblySettings.default.verify = true ∧
      branchOver.assemble .default = .ok branchOverCode ∧
      ∃ again assembly',
        Graph.ofBytecode .small branchOver.metadata .coarse branchOverCode.bytecode = .ok again ∧
        again.assemble .default = .ok assembly' ∧
        assembly'.bytecode.code = branchOverCode.bytecode.code ∧
        assembly'.bytecode.firstLine = branchOverCode.bytecode.firstLine ∧
        assembly'.bytecode.lineStarts = branchOverCode.bytecode.lineStarts ∧
        assembly'.passes = branchOverCode.passes ∧
        assembly'.stackHeight = branchOverCode.stackHeight :=
  ⟨branchOver_indexed, rfl, branchOver_assemble,
    assemble_again branchOver_indexed rfl branchOver_assemble .coarse⟩

end Assembly
end StackCode
