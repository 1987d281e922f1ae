import StackCode.Proofs.Assembly.Layout
import StackCode.Proofs.Assembly.Slots

/-!
The code of a settled layout.  It reads back as one instruction for each slot, in their order,
and each branch lands where the slot it was aimed at stands.
-/

namespace StackCode

open Encoding Outcome

/-- A slot whose operand fits its opcode, in code of `total` slots. -/
structure Slot.Fits (isa : InstructionSet) (total : Nat) (slot : Slot) : Prop where
  kind : isa.operandKind slot.instruction.opcode = .ok slot.kind
  target : slot.target.isSome = slot.kind.isJump
  target_lt : ∀ target, slot.target = some target → target < total
  argument_lt : slot.argument < 0x100000000

theorem Flat.Resolved.fits {isa : InstructionSet} {metadata : Metadata} {verify : Bool}
    {blocks : List BasicBlock} {instruction : Instruction} {slot : Slot}
    (h : Resolved isa metadata verify blocks instruction slot) :
    slot.Fits isa (BasicBlock.totalSize blocks) := by
  obtain ⟨rfl, hkind, hplain, hbranch⟩ := h
  cases hjump : slot.kind.isJump with
  | false =>
    obtain ⟨-, htarget, hargument⟩ := hplain hjump
    refine ⟨hkind, by rw [htarget, hjump]; rfl, fun target h => ?_, Operand.argument_lt hargument⟩
    rw [htarget] at h
    cases h
  | true =>
    obtain ⟨hargument, label, index, -, htarget, -, hlt⟩ := hbranch hjump
    refine ⟨hkind, by rw [htarget, hjump]; rfl, fun target h => ?_, by rw [hargument]; decide⟩
    rw [htarget] at h
    cases h
    exact hlt

namespace Layout

/-! ### Widths -/

theorem relativeFrom_eq_ok {unit target : Nat} {width : Width} :
    ∀ {fuel extensions : Nat}, relativeFrom unit target fuel extensions = .ok width →
      target = unit + width.extensions + 1 + width.argument ∧
        extensionCount width.argument ≤ width.extensions ∧
        width.extensions < extensions + fuel := by
  intro fuel
  induction fuel with
  | zero =>
    intro extensions h
    cases h
  | succ fuel ih =>
    intro extensions h
    rw [relativeFrom] at h
    split at h
    · cases h
    · split at h
      · rename_i hahead hcount
        cases h
        exact ⟨by simp only; omega, hcount, by simp only; omega⟩
      · obtain ⟨htarget, hcount, hlt⟩ := ih h
        exact ⟨htarget, hcount, by omega⟩

/-- The distance of a relative branch is measured from its end. -/
theorem relative_eq_ok {unit target : Nat} {width : Width} (h : relative unit target = .ok width) :
    target = unit + width.extensions + 1 + width.argument ∧
      extensionCount width.argument ≤ width.extensions ∧ width.extensions ≤ maxExtensions := by
  obtain ⟨htarget, hcount, hlt⟩ := relativeFrom_eq_ok h
  exact ⟨htarget, hcount, by omega⟩

/-- What the reader makes of a slot at `unit`. -/
def readBack (offsets : Array Nat) (unit : Nat) (slot : Slot) (width : Width) : Decoded :=
  { offset := unit
    size := width.extensions + 1
    opcode := slot.instruction.opcode
    argument := if slot.kind = .none then none else some width.argument
    target := slot.target.bind fun target => offsets[target]?
    line := none
    isTarget := false }

section Code

variable {isa : InstructionSet} {offsets : Array Nat} {total : Nat}

/-- An argument fits the units it is given, and branches are read back with their target. -/
theorem slotWidth_eq_ok {slot : Slot} {unit : Nat} {width : Width} (hslot : slot.Fits isa total)
    (hsize : total ≤ offsets.size) (hunits : ∀ unit ∈ offsets.toList, unit < 0x100000000)
    (h : slotWidth slot unit (unitOf offsets slot) = .ok width) :
    width.extensions ≤ maxExtensions ∧ width.argument < 256 ^ (width.extensions + 1) ∧
      Decoded.Group.target
          { size := width.extensions + 1, opcode := slot.instruction.opcode,
            argument := width.argument } unit slot.kind =
        .ok (slot.target.bind fun target => offsets[target]?) := by
  obtain ⟨-, hjump, htarget, hargument⟩ := hslot
  have hplain : ∀ argument, argument < 0x100000000 →
      argument < 256 ^ (extensionCount argument + 1) := fun argument hword =>
    lt_of_extensionCount_le hword (Nat.le_refl _)
  cases hto : slot.target with
  | none =>
    rw [slotWidth, hto] at h
    simp only [Except.ok.injEq] at h
    rw [hto] at hjump
    refine ⟨h ▸ extensionCount_le _, h ▸ hplain _ hargument, ?_⟩
    cases hkind : slot.kind <;> rw [hkind] at hjump <;> first | rfl | cases hjump
  | some target =>
    have hlt : target < offsets.size := Nat.lt_of_lt_of_le (htarget target hto) hsize
    have hat : offsets[target]? = some offsets[target] := Array.getElem?_eq_getElem hlt
    have hunit : offsets[target] < 0x100000000 := hunits _ (Array.getElem_mem_toList hlt)
    have hof : unitOf offsets slot = offsets[target] := by
      rw [unitOf, hto, Option.bind_some, hat]
      rfl
    rw [slotWidth, hto, hof] at h
    rw [hto] at hjump
    rw [Option.bind_some, hat]
    cases hkind : slot.kind with
    | relativeJump =>
      rw [hkind] at h
      obtain ⟨hdistance, hcount, hmax⟩ := relative_eq_ok h
      have hreach : unit + (width.extensions + 1) + width.argument = offsets[target] := by omega
      refine ⟨hmax, lt_of_extensionCount_le (by omega) hcount, ?_⟩
      simp only [Decoded.Group.target]
      rw [hreach, if_pos hunit]
    | absoluteJump =>
      rw [hkind] at h
      simp only [Except.ok.injEq] at h
      refine ⟨h ▸ extensionCount_le _, h ▸ hplain _ hunit, ?_⟩
      rw [← h]
      rfl
    | _ =>
      rw [hkind] at hjump
      cases hjump

/-- A slot is read back where it was placed. -/
theorem read_slot {slot : Slot} {unit : Nat} {width : Width} (hslot : slot.Fits isa total)
    (hsize : total ≤ offsets.size) (hunits : ∀ unit ∈ offsets.toList, unit < 0x100000000)
    (h : slotWidth slot unit (unitOf offsets slot) = .ok width) (rest : List UInt8) :
    Decoded.read isa unit (instruction isa.extension slot.instruction.opcode width.argument
      width.extensions ++ rest) = .ok (readBack offsets unit slot width, rest) := by
  obtain ⟨hmax, hfits, htarget⟩ := slotWidth_eq_ok hslot hsize hunits h
  have hopcode := InstructionSet.ne_extension_of_operandKind hslot.kind
  refine Decoded.read_eq_ok.mpr
    ⟨_, Decoded.Group.read_instruction hopcode hmax hfits unit rest, ?_⟩
  exact Decoded.ofGroup_eq_ok.mpr ⟨slot.kind, _, hslot.kind, htarget, rfl⟩

/-! ### Listings -/

/-- The instructions that slots from `unit` on are read back as. -/
def listing (offsets : Array Nat) : (unit : Nat) → List (Slot × Width) → List Decoded
  | _, [] => []
  | unit, (slot, width) :: rest =>
    readBack offsets unit slot width :: listing offsets (unit + width.extensions + 1) rest

theorem Placed.length_eq {unit : Nat} {slots : List Slot} {units : List Nat}
    {widths : List Width} (h : Placed offsets unit slots units widths) :
    widths.length = slots.length ∧ units.length = slots.length + 1 := by
  induction h with
  | nil => exact ⟨rfl, rfl⟩
  | cons hunit hwidth hrest ih =>
    obtain ⟨hwidths, hunits⟩ := ih
    simp [hwidths, hunits]

theorem Placed.lt {unit : Nat} {slots : List Slot} {units : List Nat} {widths : List Width}
    (h : Placed offsets unit slots units widths) : ∀ unit ∈ units, unit < 0x100000000 := by
  induction h with
  | nil hunit => simpa using hunit
  | cons hunit hwidth hrest ih => exact List.forall_mem_cons.mpr ⟨hunit, ih⟩

theorem Placed.stream {unit : Nat} {slots : List Slot} {units : List Nat} {widths : List Width}
    (h : Placed offsets unit slots units widths) (hslots : ∀ slot ∈ slots, slot.Fits isa total)
    (hsize : total ≤ offsets.size) (hunits : ∀ unit ∈ offsets.toList, unit < 0x100000000) :
    Decoded.Stream isa unit (code isa.extension slots widths)
      (listing offsets unit (slots.zip widths)) := by
  induction h with
  | nil => exact .nil _
  | cons hunit hwidth hrest ih =>
    obtain ⟨hslot, hothers⟩ := List.forall_mem_cons.mp hslots
    exact .cons (read_slot hslot hsize hunits hwidth _) (ih hothers)

/-- The instructions start at the units of their slots. -/
theorem Placed.offsets_listing {unit : Nat} {slots : List Slot} {units : List Nat}
    {widths : List Width} (h : Placed offsets unit slots units widths) :
    (listing offsets unit (slots.zip widths)).map (·.offset) ++
        [Decoded.stopFrom unit (listing offsets unit (slots.zip widths))] = units := by
  induction h with
  | nil => rfl
  | cons hunit hwidth hrest ih =>
    rw [List.zip_cons_cons, listing, List.map_cons, List.cons_append, Decoded.stopFrom]
    exact congrArg _ ih

/-- What is read back of a slot does not depend on the other slots, its place apart. -/
theorem forall₂_listing {unit : Nat} {slots : List Slot} {units : List Nat}
    {widths : List Width} (h : Placed offsets unit slots units widths) :
    List.Forall₂ (fun slot d => ∃ unit width,
        slotWidth slot unit (unitOf offsets slot) = .ok width ∧
          d = readBack offsets unit slot width)
      slots (listing offsets unit (slots.zip widths)) := by
  induction h with
  | nil => exact .nil
  | cons hunit hwidth hrest ih => exact .cons ⟨_, _, hwidth, rfl⟩ ih

end Code

end Layout
end StackCode
