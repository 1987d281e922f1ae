import StackCode.Proofs.Assembly.Faithful

/-!
Strict assembly.  With verification on, code is only assembled if every operand is of the form
that its opcode expects, except that the operand of an immediate opcode may be absent: it is
encoded as zero, as it would be without verification.
-/

namespace StackCode

open Outcome

/-- The one operand that passes for another form: none at all, in place of a number. -/
def Operand.Lacking (operand : Operand) (kind : OperandKind) : Prop :=
  kind = .immediate ∧ operand = Operand.none

namespace Operand

theorem not_lacking {operand : Operand} (h : operand ≠ Operand.none) (kind : OperandKind) :
    ¬operand.Lacking kind := fun hlacking => h hlacking.2

/-- An operand that is encoded with care has the form that is expected, unless it is lacking. -/
theorem fits_iff_of_argument {operand : Operand} {opcode : UInt8} {kind : OperandKind}
    {metadata : Metadata} {value : Nat}
    (h : operand.argument opcode kind metadata true = .ok value) :
    operand.fits kind = true ↔ ¬operand.Lacking kind := by
  cases operand with
  | none =>
    cases kind with
    | none => exact iff_of_true rfl fun hlacking => nomatch hlacking.1
    | immediate => exact iff_of_false Bool.false_ne_true fun hother => hother ⟨rfl, rfl⟩
    | _ => nomatch h
  | label target => cases kind <;> nomatch h
  | _ =>
    refine iff_of_true ?_ (not_lacking (by simp) kind)
    cases kind <;> first | rfl | nomatch h

/-- A label is what a branch expects. -/
theorem fits_iff_of_label {operand : Operand} {kind : OperandKind} {label : Label}
    (hlabel : operand.label? = some label) (hjump : kind.isJump = true) :
    operand.fits kind = true ↔ ¬operand.Lacking kind := by
  cases operand with
  | label target => exact iff_of_true hjump (not_lacking (by simp) kind)
  | _ => nomatch hlabel

end Operand

/-- The operand of an instruction that was resolved with care fits, unless it is lacking. -/
theorem Flat.Resolved.fits_iff {isa : InstructionSet} {metadata : Metadata}
    {blocks : List BasicBlock} {instruction : Instruction} {slot : Slot}
    (h : Resolved isa metadata true blocks instruction slot) :
    instruction.operand.fits slot.kind = true ↔ ¬instruction.operand.Lacking slot.kind := by
  cases hjump : slot.kind.isJump with
  | false =>
    obtain ⟨-, -, hargument⟩ := h.plain hjump
    exact Operand.fits_iff_of_argument hargument
  | true =>
    obtain ⟨-, label, index, hlabel, -⟩ := h.branch hjump
    exact Operand.fits_iff_of_label hlabel hjump

namespace Assembly

/-- Every instruction of code that was assembled with care has an operand of the form that its
opcode expects, or lacks the number that it expects. -/
theorem assemble_fits_iff {graph : Graph} {settings : AssemblySettings} {assembly : Assembly}
    (h : graph.assemble settings = .ok assembly) (hverify : settings.verify = true) :
    ∀ block ∈ graph.leaves, ∀ instruction ∈ block.all, ∃ kind,
      graph.isa.operandKind instruction.opcode = .ok kind ∧
        (instruction.operand.fits kind = true ↔ ¬instruction.operand.Lacking kind) := by
  obtain ⟨blocks, slots, layout, hbuilt⟩ := assemble_eq_ok.mp h
  intro block hblock instruction hinstruction
  have hmem : block ∈ blocks := (Graph.linearize_perm hbuilt.linear).1.mem_iff.mpr hblock
  obtain ⟨slot, -, hresolved⟩ :=
    exists_of_mem hbuilt.resolved (List.mem_flatMap.mpr ⟨block, hmem, hinstruction⟩)
  rw [hverify] at hresolved
  exact ⟨slot.kind, hresolved.kind, hresolved.fits_iff⟩

/-- A tuple of no stated size. -/
def unsized : Graph where
  metadata := default
  isa := .small
  entry := 1
  blocks :=
    [(1, .basic { BasicBlock.empty 1 none with instructions := [.simple 102, .simple 83] })]

/-- The code of `unsized`, as if its size were zero. -/
def unsizedCode : Assembly where
  bytecode := { code := [102, 0, 83, 0], firstLine := 0, lineTable := [] }
  metadata := { (default : Metadata) with stackSize := 1 }
  stackHeight := some 1
  passes := 1

theorem unsized_assemble : unsized.assemble .strict = .ok unsizedCode := by
  have hlinear : unsized.linearize = .ok unsized.leaves :=
    Graph.linearize_chain rfl (by decide) rfl rfl
  rw [Graph.assemble, Graph.flatten, hlinear]
  rfl

/-- `unsized` is assembled although no instruction is made under the name of a tuple without a
size. -/
theorem unsized_accepted :
    unsized.assemble .strict = .ok unsizedCode ∧ AssemblySettings.strict.verify = true ∧
      ∃ block ∈ unsized.leaves, ∃ instruction ∈ block.all,
        unsized.isa.operandKind instruction.opcode = .ok .immediate ∧
        instruction.operand.fits .immediate = false ∧
        Instruction.named unsized.isa "BUILD_TUPLE" instruction.operand =
          .error (.operandMismatch instruction.opcode .immediate) :=
  ⟨unsized_assemble, rfl, _, List.mem_cons_self, .simple 102, List.mem_cons_self, rfl, rfl, rfl⟩

/-- The operands of `unsized` fit, that of the tuple apart. -/
theorem unsized_fits :
    unsized.assemble .strict = .ok unsizedCode ∧ AssemblySettings.strict.verify = true ∧
      ∀ block ∈ unsized.leaves, ∀ instruction ∈ block.all, ∃ kind,
        unsized.isa.operandKind instruction.opcode = .ok kind ∧
          (instruction.operand.fits kind = true ↔ ¬instruction.operand.Lacking kind) :=
  ⟨unsized_assemble, rfl, assemble_fits_iff unsized_assemble rfl⟩

end Assembly
end StackCode
