import StackCode.Assembly.Basic
import StackCode.Proofs.Assembly.Alike
import StackCode.Proofs.Graph.Rebuild
import StackCode.Proofs.Instruction.Argument

/-!
Assembling what was read.  The slots of a graph that was read from code follow from its
instructions alone, and so does everything that is assembled from them: where the graph was cut
into blocks leaves no trace.
-/

namespace StackCode

open Outcome

/-! ## Slots of code -/

/-- The slot stands for an instruction of code that was read. -/
structure Slot.Holds (isa : InstructionSet) (metadata : Metadata) (verify : Bool)
    (decoded : List Decoded) (slot : Slot) (d : Decoded) : Prop where
  opcode : slot.instruction.opcode = d.opcode
  kind : isa.operandKind d.opcode = .ok slot.kind
  plain : slot.kind.isJump = false → slot.target = none ∧ ∃ operand,
    Operand.ofArgument slot.kind d.argument metadata = .ok operand ∧
      operand.argument d.opcode slot.kind metadata verify = .ok slot.argument ∧
      slot.instruction.operand.immediate?.getD 0 = operand.immediate?.getD 0
  branch : slot.kind.isJump = true → slot.argument = 0 ∧
    slot.instruction.operand.immediate?.getD 0 = 0 ∧ ∃ index landing, slot.target = some index ∧
      decoded[index]? = some landing ∧ d.target = some landing.offset

theorem stackEffect_of_immediate {isa : InstructionSet} {instruction instruction' : Instruction}
    (hopcode : instruction'.opcode = instruction.opcode)
    (himmediate : instruction'.operand.immediate?.getD 0 =
      instruction.operand.immediate?.getD 0) :
    instruction'.stackEffect isa = instruction.stackEffect isa := by
  simp only [Instruction.stackEffect, InstructionSet.stackEffect, hopcode, himmediate]

/-- The effect of a branch does not depend on its label. -/
theorem immediate?_of_label {operand : Operand} {label : Label}
    (h : operand.label? = some label) : operand.immediate? = none := by
  cases operand with
  | label target => rfl
  | _ => cases h

section Holds

variable {isa : InstructionSet} {metadata : Metadata} {verify : Bool} {decoded : List Decoded}
  {slot slot' : Slot} {d : Decoded}

/-- Slots that stand for one instruction differ at most in how their operands are written. -/
theorem Slot.Holds.alike {unit : Nat} (htiled : Decoded.Tiled unit decoded)
    (h : slot.Holds isa metadata verify decoded d)
    (h' : slot'.Holds isa metadata verify decoded d) : Slot.Alike isa slot slot' := by
  have hkind : slot'.kind = slot.kind := Except.ok.inj (h'.kind.symm.trans h.kind)
  have hopcode : slot'.instruction.opcode = slot.instruction.opcode :=
    h'.opcode.trans h.opcode.symm
  cases hjump : slot.kind.isJump with
  | false =>
    obtain ⟨htarget, operand, hread, hargument, himmediate⟩ := h.plain hjump
    obtain ⟨htarget', operand', hread', hargument', himmediate'⟩ := h'.plain (hkind ▸ hjump)
    rw [hkind] at hread' hargument'
    obtain rfl : operand = operand' := Except.ok.inj (hread.symm.trans hread')
    exact ⟨hopcode, hkind, Except.ok.inj (hargument'.symm.trans hargument),
      htarget'.trans htarget.symm,
      stackEffect_of_immediate hopcode (himmediate'.trans himmediate.symm)⟩
  | true =>
    obtain ⟨hargument, himmediate, index, landing, htarget, hat, hto⟩ := h.branch hjump
    obtain ⟨hargument', himmediate', index', landing', htarget', hat', hto'⟩ :=
      h'.branch (hkind ▸ hjump)
    -- Both branches land on one instruction, as no two stand at one place.
    have hindex : index' = index :=
      htiled.index_eq hat' hat (Option.some.inj (hto'.symm.trans hto))
    exact ⟨hopcode, hkind, hargument'.trans hargument.symm,
      by rw [htarget', htarget, hindex],
      stackEffect_of_immediate hopcode (himmediate'.trans himmediate.symm)⟩

theorem alike_of_holds {unit : Nat} {slots slots' : List Slot}
    (htiled : Decoded.Tiled unit decoded)
    (h : List.Forall₂ (fun d slot => Slot.Holds isa metadata verify decoded slot d) decoded slots)
    (h' : List.Forall₂ (fun d slot => Slot.Holds isa metadata verify decoded slot d) decoded
      slots') :
    List.Forall₂ (Slot.Alike isa) slots slots' :=
  forall₂_between h h' fun _ _ hholds _ _ hholds' => hholds.alike htiled hholds'

/-- An instruction of a rebuilt graph becomes a slot that stands for what it was read from. -/
theorem Graph.Restores.exists_slot {blocks : List BasicBlock} {instruction : Instruction}
    {kind : OperandKind} (h : Graph.Restores isa metadata decoded blocks instruction d)
    (hkind : isa.operandKind d.opcode = .ok kind)
    (hword : ∀ argument, d.argument = some argument → argument < 0x100000000)
    (htotal : BasicBlock.totalSize blocks = decoded.length) (verify : Bool) :
    ∃ slot, Flat.Resolved isa metadata verify blocks instruction slot ∧
      slot.Holds isa metadata verify decoded d := by
  cases hjump : kind.isJump with
  | false =>
    have hread := h.plain kind hkind hjump
    obtain ⟨value, -, hvalue, hlabel⟩ :=
      Operand.argument_of_ofArgument hjump hword hread d.opcode verify
    refine ⟨{ instruction, kind, argument := value, target := none },
      ⟨rfl, h.opcode ▸ hkind, fun _ => ⟨hlabel, rfl, h.opcode ▸ hvalue⟩, fun hbranch => ?_⟩,
      ⟨h.opcode, hkind, fun _ => ⟨rfl, instruction.operand, hread, hvalue, rfl⟩,
        fun hbranch => ?_⟩⟩
    · rw [hjump] at hbranch
      cases hbranch
    · rw [hjump] at hbranch
      cases hbranch
  | true =>
    obtain ⟨label, index, landing, hoperand, hnames, hat, hto⟩ := h.branch kind hkind hjump
    obtain ⟨hlt, -⟩ := List.getElem?_eq_some_iff.mp hat
    have hlabel : instruction.label? = some label := by rw [Instruction.label?, hoperand]; rfl
    have himmediate : instruction.operand.immediate?.getD 0 = 0 := by
      rw [immediate?_of_label hlabel]
      rfl
    refine ⟨{ instruction, kind, argument := 0, target := some index },
      ⟨rfl, h.opcode ▸ hkind, fun hplain => ?_, fun _ => ⟨rfl, label, index, hlabel, rfl, hnames,
        htotal ▸ hlt⟩⟩,
      ⟨h.opcode, hkind, fun hplain => ?_, fun _ => ⟨rfl, himmediate, index, landing, rfl, hat,
        hto⟩⟩⟩
    · rw [hjump] at hplain
      cases hplain
    · rw [hjump] at hplain
      cases hplain

end Holds

namespace Graph

variable {isa : InstructionSet} {metadata : Metadata} {starts : List LineStart}
  {decoded : List Decoded} {graph : Graph} {blocks : List BasicBlock}

theorem Rebuilt.totalSize (h : Rebuilt isa metadata decoded graph blocks) :
    BasicBlock.totalSize blocks = decoded.length := by
  rw [← Flat.length_flatMap_all, h.restores.length_eq]

/-- The instructions of a rebuilt graph become slots that stand for what they were read from. -/
theorem Rebuilt.exists_slots (h : Rebuilt isa metadata decoded graph blocks)
    (hlisting : Decoded.Listing isa starts decoded) (verify : Bool) :
    ∃ slots,
      List.Forall₂ (Flat.Resolved isa metadata verify blocks) (blocks.flatMap (·.all)) slots ∧
      List.Forall₂ (fun d slot => Slot.Holds isa metadata verify decoded slot d) decoded slots := by
  have hrestores : List.Forall₂ (fun instruction d =>
      d ∈ decoded ∧ Restores isa metadata decoded blocks instruction d)
      (blocks.flatMap (·.all)) decoded :=
    ((List.forall₂_and_left _ _).mpr ⟨fun _ hd => hd, h.restores.flip⟩).flip
  refine exists_through (fun instruction d hboth => ?_) hrestores
  obtain ⟨hd, hrestored⟩ := hboth
  obtain ⟨kind, hkind, -⟩ := hlisting.kind d hd
  exact hrestored.exists_slot hkind (hlisting.argument_lt d hd) h.totalSize verify

/-- A rebuilt graph is flattened to slots that stand for its instructions, with the lines that were
read. -/
theorem Rebuilt.flatten (h : Rebuilt isa metadata decoded graph blocks)
    (hlisting : Decoded.Listing isa starts decoded) (verify : Bool) :
    ∃ slots, graph.flatten verify =
        .ok { slots, lines := Flat.changes 0 none (Decoded.activeFrom none decoded) } ∧
      List.Forall₂ (fun d slot => Slot.Holds isa metadata verify decoded slot d) decoded slots := by
  obtain ⟨slots, hslots, hholds⟩ := h.exists_slots hlisting verify
  refine ⟨slots, bind_eq_ok.mpr ⟨blocks, h.linear, ?_⟩, hholds⟩
  rw [h.isa_eq, h.metadata_eq]
  refine (Flat.ofBlocks_eq_ok (linearize_perm h.linear).2).mpr ⟨h.sorted, hslots, ?_⟩
  rw [Flat.lineStarts_placed, h.lines]

/-- However code was cut into blocks, the same is assembled. -/
theorem Rebuilt.assemble_eq {other : Graph} {others : List BasicBlock}
    (h : Rebuilt isa metadata decoded graph blocks)
    (hother : Rebuilt isa metadata decoded other others)
    (hlisting : Decoded.Listing isa starts decoded) (settings : AssemblySettings) :
    graph.assemble settings = other.assemble settings := by
  obtain ⟨slots, hflat, hslots⟩ := h.flatten hlisting settings.verify
  obtain ⟨slots', hflat', hslots'⟩ := hother.flatten hlisting settings.verify
  have halike := alike_of_holds hlisting.tiled hslots hslots'
  rw [Graph.assemble, Graph.assemble, hflat, hflat', h.isa_eq, hother.isa_eq, h.metadata_eq,
    hother.metadata_eq]
  simp only [bind, Except.bind, Layout.ofSlots_alike halike, Layout.code_alike halike,
    StackHeight.peak_alike halike, Flat.lineStartsAt]

/-- Code is read into fine and into coarse blocks with the same error, or into two graphs that are
assembled to the same code, or refused with the same error, under all settings. -/
theorem ofBytecode_granularity (isa : InstructionSet) (metadata : Metadata) (bytecode : Bytecode)
    (settings : AssemblySettings) :
    (∃ error, ofBytecode isa metadata .fine bytecode = .error error ∧
      ofBytecode isa metadata .coarse bytecode = .error error) ∨
    ∃ fine coarse, ofBytecode isa metadata .fine bytecode = .ok fine ∧
      ofBytecode isa metadata .coarse bytecode = .ok coarse ∧
      fine.assemble settings = coarse.assemble settings := by
  cases hdecoded : Decoded.ofBytecode isa bytecode with
  | error error =>
    refine .inl ⟨error, ?_, ?_⟩
    · rw [ofBytecode, hdecoded]
      rfl
    · rw [ofBytecode, hdecoded]
      rfl
  | ok decoded =>
    obtain ⟨starts, -, hlisting⟩ := Decoded.listing_of_ofBytecode hdecoded
    have hread : ∀ granularity, ofBytecode isa metadata granularity bytecode =
        ofDecoded isa metadata granularity decoded := by
      intro granularity
      rw [ofBytecode, hdecoded]
      rfl
    have herror : ∀ granularity error, ofDecoded isa metadata granularity decoded = .error error ↔
        decoded.mapM (Item.read isa metadata) = .error error := fun granularity _ =>
      ofDecoded_eq_error granularity hlisting.tiled.nodup hlisting.landing
    rw [hread, hread]
    cases hfine : ofDecoded isa metadata .fine decoded with
    | error error =>
      exact .inl ⟨error, rfl, (herror .coarse error).mpr ((herror .fine error).mp hfine)⟩
    | ok fine =>
      cases hcoarse : ofDecoded isa metadata .coarse decoded with
      | error error =>
        rw [(herror .fine error).mpr ((herror .coarse error).mp hcoarse)] at hfine
        cases hfine
      | ok coarse =>
        obtain ⟨blocks, hblocks⟩ :=
          rebuilt_of_ofDecoded hlisting.tiled.nodup hlisting.landing hfine
        obtain ⟨blocks', hblocks'⟩ :=
          rebuilt_of_ofDecoded hlisting.tiled.nodup hlisting.landing hcoarse
        exact .inr ⟨fine, coarse, rfl, rfl, hblocks.assemble_eq hblocks' hlisting settings⟩

end Graph
end StackCode
