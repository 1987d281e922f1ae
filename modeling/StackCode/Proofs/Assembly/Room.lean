import StackCode.Proofs.Assembly.Shortest
import StackCode.Proofs.RoundTrip

/-!
Room in code that was read.  Where instructions stand in code, their slots can stand too, and so can
they where the same instructions stand in any other code.  Without relative branches such code is
assembled again, into no more units than it has.
-/

namespace StackCode

open Encoding Outcome

namespace Decoded

/-- How the units of an instruction were folded into one argument. -/
structure Folded (isa : InstructionSet) (d : Decoded) : Prop where
  room : extensionCount (d.argument.getD 0) + 1 ≤ d.size
  shape : ∀ kind, isa.operandKind d.opcode = .ok kind →
    d.argument = Operand.readBack kind (d.argument.getD 0)
  aim : isa.operandKind d.opcode = .ok .absoluteJump → d.argument = d.target

theorem read_folded {isa : InstructionSet} {unit : Nat} {bytes rest : List UInt8} {d : Decoded}
    (h : read isa unit bytes = .ok (d, rest)) : d.Folded isa := by
  obtain ⟨group, hgroup, hd⟩ := read_eq_ok.mp h
  obtain ⟨kind, target, hkind, htarget, rfl⟩ := ofGroup_eq_ok.mp hd
  obtain ⟨hsize, -, -, hfits, -⟩ := Group.read_eq_ok (Nat.zero_le _) hgroup
  refine ⟨?_, fun other hother => ?_, fun habsolute => ?_⟩
  · obtain ⟨count, hcount⟩ : ∃ count, group.size = count + 1 := ⟨group.size - 1, by omega⟩
    have hlt : group.argument < 256 ^ (count + 1) := hcount ▸ hfits Nat.one_pos
    show extensionCount ((if kind = .none then none else some group.argument).getD 0) + 1 ≤
      group.size
    rw [hcount]
    split
    · exact Nat.succ_le_succ (Nat.zero_le count)
    · exact Nat.succ_le_succ (Layout.extensionCount_le_of_lt hlt)
  · obtain rfl : kind = other := Except.ok.inj (hkind.symm.trans hother)
    show (if kind = .none then none else some group.argument) = Operand.readBack kind _
    rw [Operand.readBack]
    split <;> rfl
  · obtain rfl : kind = .absoluteJump := Except.ok.inj (hkind.symm.trans habsolute)
    exact Except.ok.inj htarget

theorem Stream.folded {isa : InstructionSet} {unit : Nat} {code : List UInt8}
    {decoded : List Decoded} (h : Stream isa unit code decoded) : ∀ d ∈ decoded, d.Folded isa := by
  induction h with
  | nil => exact List.forall_mem_nil _
  | cons hread _ ih => exact List.forall_mem_cons.mpr ⟨read_folded hread, ih⟩

theorem folded_of_ofBytecode {isa : InstructionSet} {bytecode : Bytecode} {decoded : List Decoded}
    (h : ofBytecode isa bytecode = .ok decoded) : ∀ d ∈ decoded, d.Folded isa := by
  obtain ⟨raw, starts, hstream, -, -, -, rfl⟩ := ofBytecode_eq_ok.mp h
  intro d hd
  obtain ⟨m, hm, rfl⟩ := List.mem_map.mp hd
  obtain ⟨r, hr, rfl⟩ := List.mem_map.mp hm
  obtain ⟨hroom, hshape, haim⟩ := hstream.folded r hr
  exact ⟨hroom, hshape, haim⟩

theorem length_of_ofBytecode {isa : InstructionSet} {bytecode : Bytecode} {decoded : List Decoded}
    (h : ofBytecode isa bytecode = .ok decoded) :
    bytecode.code.length = 2 * stopFrom 0 decoded := by
  obtain ⟨raw, starts, hstream, -, -, -, rfl⟩ := ofBytecode_eq_ok.mp h
  obtain ⟨hstop, heven⟩ := hstream.length_code
  rw [stopFrom_lined, stopFrom_marked, hstop]
  omega

/-! ### Places -/

/-- The units at which instructions stand, and the unit behind them. -/
def places (decoded : List Decoded) : Array Nat :=
  (decoded.map (·.offset) ++ [stopFrom 0 decoded]).toArray

theorem unitAt_places (decoded : List Decoded) (index : Nat) :
    Layout.unitAt (places decoded) index =
      ((decoded.map (·.offset) ++ [stopFrom 0 decoded])[index]?).getD 0 := by
  rw [Layout.unitAt, places, List.getElem?_toArray]

theorem unitAt_places_of_getElem? {decoded : List Decoded} {index : Nat} {d : Decoded}
    (hd : decoded[index]? = some d) : Layout.unitAt (places decoded) index = d.offset := by
  obtain ⟨hlt, -⟩ := List.getElem?_eq_some_iff.mp hd
  rw [unitAt_places, List.getElem?_append_left (by rwa [List.length_map]), List.getElem?_map, hd]
  rfl

theorem unitAt_places_length (decoded : List Decoded) :
    Layout.unitAt (places decoded) decoded.length = stopFrom 0 decoded := by
  rw [unitAt_places, List.getElem?_append_right (by simp)]
  simp

/-- An instruction ends where the next one stands, or at the end. -/
theorem Tiled.next_place {unit : Nat} {decoded : List Decoded} (h : Tiled unit decoded) :
    ∀ {index : Nat} {d : Decoded}, decoded[index]? = some d →
      (decoded.map (·.offset) ++ [stopFrom unit decoded])[index + 1]? = some d.next := by
  induction decoded generalizing unit with
  | nil =>
    intro index d hd
    cases hd
  | cons first others ih =>
    obtain ⟨-, -, hothers⟩ := h
    intro index d hd
    rw [List.map_cons, List.cons_append, List.getElem?_cons_succ, stopFrom]
    cases index with
    | zero =>
      cases hd
      cases others with
      | nil => rfl
      | cons second rest =>
        rw [List.map_cons, List.cons_append, List.getElem?_cons_zero, hothers.1]
    | succ index => exact ih hothers hd

/-- Every instruction takes at least one unit. -/
theorem Tiled.add_length_le {unit : Nat} {decoded : List Decoded} (h : Tiled unit decoded) :
    unit + decoded.length ≤ stopFrom unit decoded := by
  induction decoded generalizing unit with
  | nil => exact Nat.le_refl _
  | cons first others ih =>
    obtain ⟨hoffset, hpos, hothers⟩ := h
    have hrest := ih hothers
    rw [next] at hrest
    rw [stopFrom, next, List.length_cons]
    omega

theorem Tiled.unitAt_places_zero {decoded : List Decoded} (h : Tiled 0 decoded) :
    Layout.unitAt (places decoded) 0 = 0 := by
  cases decoded with
  | nil => rfl
  | cons first others => exact h.1

end Decoded

/-! ### Slots of code -/

/-- The slot stands for an instruction, its argument included, and branches by no distance. -/
structure Slot.Copies (isa : InstructionSet) (decoded : List Decoded) (slot : Slot) (d : Decoded) :
    Prop where
  opcode : slot.instruction.opcode = d.opcode
  kind : isa.operandKind d.opcode = .ok slot.kind
  absolute : slot.kind ≠ .relativeJump
  plain : slot.kind.isJump = false → slot.target = none ∧ slot.argument = d.argument.getD 0
  branch : slot.kind.isJump = true → ∃ index landing, slot.target = some index ∧
    decoded[index]? = some landing ∧ d.target = some landing.offset

/-- An instruction that stands in other code in place of another: its opcode is the same, and it has
the same argument, or lands on the instruction in place of the one where the other lands. -/
structure Assembly.Restates (isa : InstructionSet) (before after : List Decoded) (d d' : Decoded) :
    Prop extends Agrees isa before after d d' where
  argument : isa.isJump d.opcode = false → d'.argument = d.argument

section Copies

variable {isa : InstructionSet} {decoded : List Decoded} {slot : Slot} {d : Decoded}

theorem Slot.Copies.target_isSome (h : slot.Copies isa decoded d) :
    slot.target.isSome = slot.kind.isJump := by
  cases hjump : slot.kind.isJump with
  | false => rw [(h.plain hjump).1]; rfl
  | true =>
    obtain ⟨index, landing, htarget, -⟩ := h.branch hjump
    rw [htarget]
    rfl

theorem Slot.Copies.kind_of_isJump (h : slot.Copies isa decoded d)
    (hjump : slot.kind.isJump = true) : slot.kind = .absoluteJump := by
  cases hkind : slot.kind with
  | absoluteJump => rfl
  | relativeJump => exact absurd hkind h.absolute
  | _ => rw [hkind] at hjump; cases hjump

/-- Where the instructions stand, a slot takes the argument that was read. -/
theorem Slot.Copies.argumentIn_places (h : slot.Copies isa decoded d) (hfolded : d.Folded isa) :
    slot.argumentIn (Layout.unitAt (Decoded.places decoded)) = d.argument.getD 0 := by
  rw [Slot.argumentIn]
  cases hjump : slot.kind.isJump with
  | false =>
    obtain ⟨htarget, hargument⟩ := h.plain hjump
    rw [htarget]
    exact hargument
  | true =>
    obtain ⟨index, landing, htarget, hat, hto⟩ := h.branch hjump
    have haim := hfolded.aim (h.kind_of_isJump hjump ▸ h.kind)
    rw [htarget, haim, hto]
    exact Decoded.unitAt_places_of_getElem? hat

/-- A slot that stands for an instruction stands for the same instruction in other code. -/
theorem Slot.Copies.restated {unit : Nat} {after : List Decoded} {d' : Decoded}
    (htiled : Decoded.Tiled unit decoded) (h : slot.Copies isa decoded d)
    (hsame : Assembly.Restates isa decoded after d d') : slot.Copies isa after d' := by
  have hjump := InstructionSet.isJump_of_operandKind h.kind
  refine ⟨h.opcode.trans hsame.opcode.symm, hsame.opcode ▸ h.kind, h.absolute, fun hplain => ?_,
    fun hbranch => ?_⟩
  · rw [hsame.argument (hjump.trans hplain)]
    exact h.plain hplain
  · obtain ⟨index, landing, hslot, hat, hto⟩ := h.branch hbranch
    obtain ⟨place, landing', other, hplace, hother, hto', hland⟩ :=
      hsame.branch (hjump.trans hbranch)
    have hindex : index = place :=
      htiled.index_eq hat hplace (Option.some.inj (hto.symm.trans hto'))
    exact ⟨index, other, hslot, hindex ▸ hother, hland⟩

/-- Slots can stand where their instructions stand. -/
theorem Layout.consistent_places {slots : List Slot} (htiled : Decoded.Tiled 0 decoded)
    (hfolded : ∀ d ∈ decoded, d.Folded isa)
    (h : List.Forall₂ (fun d slot => Slot.Copies isa decoded slot d) decoded slots) :
    Consistent slots (unitAt (Decoded.places decoded)) := by
  refine ⟨htiled.unitAt_places_zero, fun index slot hslot => ?_⟩
  obtain ⟨d, hd, hcopies⟩ := exists_of_getElem? h.flip hslot
  have hd' := hfolded d (List.mem_of_getElem? hd)
  have hroom := hd'.room
  rw [hcopies.argumentIn_places hd', Decoded.unitAt_places_of_getElem? hd, Decoded.unitAt_places,
    htiled.next_place hd, Option.getD_some, Decoded.next]
  omega

theorem Flat.absolute_of_copies {slots : List Slot}
    (h : List.Forall₂ (fun d slot => Slot.Copies isa decoded slot d) decoded slots) :
    Absolute slots := by
  intro slot hslot
  obtain ⟨d, -, hcopies⟩ := exists_of_mem_right h hslot
  exact hcopies.absolute

/-- As many slots branch as instructions do. -/
theorem Decoded.Listing.branches_of_copies {starts : List LineStart} {slots : List Slot}
    (hlisting : Listing isa starts decoded)
    (h : List.Forall₂ (fun d slot => Slot.Copies isa decoded slot d) decoded slots) :
    Flat.branches slots = decoded.countP (·.target.isSome) := by
  have hmap : decoded.map (·.target.isSome) = slots.map (·.target.isSome) := by
    refine map_eq_of_forall₂ h fun d hd slot hcopies => ?_
    obtain ⟨kind, hkind, hjump⟩ := hlisting.kind d hd
    rw [hjump, hcopies.target_isSome, Except.ok.inj (hkind.symm.trans hcopies.kind)]
  have hcount := congrArg (List.countP id) hmap
  rw [List.countP_map, List.countP_map] at hcount
  exact hcount.symm

/-- A layout that ends where the code does is the layout of the code. -/
theorem Layout.offsets_eq_places {slots : List Slot} {budget : Nat} {layout : Layout}
    (htiled : Decoded.Tiled 0 decoded) (hfolded : ∀ d ∈ decoded, d.Folded isa)
    (h : List.Forall₂ (fun d slot => Slot.Copies isa decoded slot d) decoded slots)
    (hlayout : ofSlots slots budget = .ok layout)
    (hstop : Decoded.stopFrom 0 decoded ≤ unitAt layout.offsets slots.length) :
    layout.offsets = Decoded.places decoded := by
  have hlength := h.length_eq
  have hsize : layout.offsets.size = slots.length + 1 := Assembly.size_offsets hlayout
  have hplaces : (Decoded.places decoded).size = slots.length + 1 := by
    simp [Decoded.places, hlength]
  rw [← Decoded.unitAt_places_length, hlength] at hstop
  refine eq_of_unitAt (hsize.trans hplaces.symm) (funext fun index => ?_)
  by_cases hindex : index ≤ slots.length
  · exact unitAt_eq_of_stop (Flat.absolute_of_copies h) (consistent_places htiled hfolded h) hlayout
      hstop index hindex
  · rw [unitAt, unitAt, Array.getElem?_eq_none (by omega), Array.getElem?_eq_none (by omega)]

end Copies

/-! ### Assembling -/

/-- The code of slots in a layout is what their arguments in it are encoded as. -/
theorem Layout.Placed.code_eq {offsets : Array Nat} (extension : UInt8) {unit : Nat}
    {slots : List Slot} {units : List Nat} {widths : List Width}
    (h : Placed offsets unit slots units widths) (habsolute : Flat.Absolute slots) :
    code extension slots widths = slots.flatMap fun slot =>
      instruction extension slot.instruction.opcode (slot.argumentIn (unitAt offsets))
        (extensionCount (slot.argumentIn (unitAt offsets))) := by
  induction h with
  | nil => rfl
  | @cons unit slot slots units width widths _ hwidth _ ih =>
    obtain ⟨hslot, habsolute⟩ := List.forall_mem_cons.mp habsolute
    rw [slotWidth_unitOf hslot, Except.ok.injEq] at hwidth
    rw [List.flatMap_cons, ← ih habsolute, ← hwidth]
    rfl

/-- The stack height of slots with defined opcodes can be measured. -/
theorem StackHeight.exists_peak {isa : InstructionSet} {slots : List Slot}
    (h : ∀ slot ∈ slots, ∃ kind, isa.operandKind slot.instruction.opcode = .ok kind) :
    ∃ height, peak isa slots = .ok height := by
  have hrun : ∀ fuel visit, ∃ last, Visit.run isa slots.toArray fuel visit = .ok last := by
    intro fuel
    induction fuel with
    | zero => exact fun visit => ⟨visit, rfl⟩
    | succ fuel ih =>
      intro visit
      rw [Visit.run]
      cases visit.pending with
      | nil => exact ⟨visit, rfl⟩
      | cons index pending =>
        simp only [List.getElem?_toArray]
        cases hslot : slots[index]? with
        | none => exact ih _
        | some slot =>
          obtain ⟨kind, hkind⟩ := h slot (List.mem_of_getElem? hslot)
          obtain ⟨effect, heffect⟩ := Instruction.exists_stackEffect hkind
          simp only [heffect]
          exact ih _
  obtain ⟨last, hlast⟩ := hrun (slots.length + 1) _
  exact ⟨last.peak, bind_eq_ok.mpr ⟨last, hlast, rfl⟩⟩

/-- Slots that settle are assembled. -/
theorem Assembly.exists_built {graph : Graph} {settings : AssemblySettings}
    {blocks : List BasicBlock} {slots : List Slot} {layout : Layout}
    (hlinear : graph.linearize = .ok blocks) (hsorted : ∀ block ∈ blocks, block.Sorted graph.isa)
    (hresolved : List.Forall₂ (Flat.Resolved graph.isa graph.metadata settings.verify blocks)
      (blocks.flatMap (·.all)) slots)
    (hsettled : Layout.ofSlots slots settings.passes = .ok layout) :
    ∃ assembly, Built graph settings assembly blocks slots layout := by
  obtain ⟨height, hheight⟩ : ∃ height, StackHeight.peak graph.isa slots = .ok height := by
    refine StackHeight.exists_peak fun slot hslot => ?_
    obtain ⟨instruction, -, hslot⟩ := exists_of_mem_right hresolved hslot
    exact ⟨slot.kind, hslot.fits.kind⟩
  cases hmeasure : settings.measureStack with
  | false =>
    exact ⟨⟨_, graph.metadata, none, layout.passes⟩, hlinear, hsorted, hresolved, hsettled, rfl,
      rfl, by rw [Measured, hmeasure]; exact ⟨rfl, rfl⟩⟩
  | true =>
    exact ⟨⟨_, { graph.metadata with
        stackSize := max graph.metadata.stackSize (saturateToWord height) },
      some (saturateToWord height), layout.passes⟩, hlinear, hsorted, hresolved, hsettled, rfl, rfl,
      by rw [Measured, hmeasure]; exact ⟨height, hheight, rfl, rfl⟩⟩

end StackCode
