import StackCode.Proofs.Assembly.Room

/-!
Looser settings.  What the assembler checks decides whether there is code, never which code: a graph
that is assembled under some settings is assembled to the same code, in as many passes, under any
that ask for less.
-/

namespace StackCode

open Outcome

/-- Settings that give no fewer passes, and only refuse an operand where others do.  Whether the
stack is measured is left open. -/
structure AssemblySettings.LooserThan (looser settings : AssemblySettings) : Prop where
  passes : settings.passes ≤ looser.passes
  verify : looser.verify = true → settings.verify = true

/-- What is encoded with care is encoded alike without it: only what would be refused is read in
another way. -/
theorem Operand.argument_of_looser {operand : Operand} {opcode : UInt8} {kind : OperandKind}
    {metadata : Metadata} {strict looser : Bool} {value : Nat}
    (h : operand.argument opcode kind metadata strict = .ok value)
    (hlooser : looser = true → strict = true) :
    operand.argument opcode kind metadata looser = .ok value := by
  cases looser with
  | true => rwa [hlooser rfl] at h
  | false =>
    cases strict with
    | false => exact h
    | true => cases kind <;> cases operand <;> first | exact h | nomatch h

theorem Flat.Resolved.of_looser {isa : InstructionSet} {metadata : Metadata} {strict looser : Bool}
    {blocks : List BasicBlock} {instruction : Instruction} {slot : Slot}
    (h : Resolved isa metadata strict blocks instruction slot)
    (hlooser : looser = true → strict = true) :
    Resolved isa metadata looser blocks instruction slot := by
  refine ⟨h.same, h.kind, fun hplain => ?_, h.branch⟩
  obtain ⟨hlabel, htarget, hargument⟩ := h.plain hplain
  exact ⟨hlabel, htarget, Operand.argument_of_looser hargument hlooser⟩

namespace Layout

/-- Offsets that settle within a budget settle at the same pass within a larger one. -/
theorem settle_of_le {slots : List Slot} {layout : Layout} :
    ∀ {budget more passes : Nat} {previous : Array Nat}, budget ≤ more →
      settle slots budget passes previous = .ok layout →
      settle slots more passes previous = .ok layout := by
  intro budget
  induction budget with
  | zero =>
    intro more passes previous _ h
    cases h
  | succ budget ih =>
    intro more passes previous hle h
    obtain ⟨more, rfl⟩ : ∃ less, more = less + 1 := ⟨more - 1, by omega⟩
    rw [settle] at h ⊢
    cases hplace : place previous 0 #[] [] slots with
    | error error =>
      rw [hplace] at h
      cases h
    | ok result =>
      rw [hplace] at h
      simp only at h ⊢
      split at h
      · rename_i hsettled
        rw [if_pos hsettled]
        exact h
      · rename_i hmoved
        rw [if_neg hmoved]
        exact ih (Nat.le_of_succ_le_succ hle) h

theorem ofSlots_of_le {slots : List Slot} {layout : Layout} {budget more : Nat}
    (hle : budget ≤ more) (h : ofSlots slots budget = .ok layout) :
    ofSlots slots more = .ok layout := by
  rw [ofSlots] at h ⊢
  split at h
  · rename_i hshort
    rw [if_pos hshort]
    exact settle_of_le hle h
  · cases h

end Layout

namespace Assembly

/-- The stack is measured in one way only. -/
theorem Measured.unique {graph : Graph} {settings other : AssemblySettings} {slots : List Slot}
    {assembly assembly' : Assembly} (h : Measured graph settings slots assembly)
    (h' : Measured graph other slots assembly')
    (hmeasure : other.measureStack = settings.measureStack) :
    assembly'.metadata = assembly.metadata ∧ assembly'.stackHeight = assembly.stackHeight := by
  rw [Measured] at h h'
  rw [hmeasure] at h'
  split at h
  · rename_i hmeasured
    rw [if_pos hmeasured] at h'
    obtain ⟨peak, hpeak, hmetadata, hheight⟩ := h
    obtain ⟨peak', hpeak', hmetadata', hheight'⟩ := h'
    cases hpeak.symm.trans hpeak'
    exact ⟨hmetadata'.trans hmetadata.symm, hheight'.trans hheight.symm⟩
  · rename_i hunmeasured
    rw [if_neg hunmeasured] at h'
    exact ⟨h'.1.trans h.1.symm, h'.2.trans h.2.symm⟩

/-- Code that is assembled under some settings is assembled to the same bytes, in as many passes,
under looser ones, and only what measuring the stack adds can be different. -/
theorem assemble_of_looser {graph : Graph} {settings looser : AssemblySettings}
    {assembly : Assembly} (hlooser : looser.LooserThan settings)
    (h : graph.assemble settings = .ok assembly) :
    ∃ other, graph.assemble looser = .ok other ∧ other.bytecode = assembly.bytecode ∧
      other.passes = assembly.passes ∧
      (looser.measureStack = settings.measureStack → other = assembly) := by
  obtain ⟨blocks, slots, layout, hbuilt⟩ := assemble_eq_ok.mp h
  have hresolved : List.Forall₂ (Flat.Resolved graph.isa graph.metadata looser.verify blocks)
      (blocks.flatMap (·.all)) slots :=
    hbuilt.resolved.imp fun _ _ hslot => hslot.of_looser hlooser.verify
  have hsettled : Layout.ofSlots slots looser.passes = .ok layout :=
    Layout.ofSlots_of_le hlooser.passes hbuilt.settled
  obtain ⟨other, hother⟩ := exists_built hbuilt.linear hbuilt.sorted hresolved hsettled
  have hbytecode : other.bytecode = assembly.bytecode := hother.bytecode.trans hbuilt.bytecode.symm
  have hpasses : other.passes = assembly.passes := hother.passes.trans hbuilt.passes.symm
  refine ⟨other, assemble_eq_ok.mpr ⟨blocks, slots, layout, hother⟩, hbytecode, hpasses,
    fun hmeasure => ?_⟩
  obtain ⟨hmetadata, hheight⟩ := hbuilt.measured.unique hother.measured hmeasure
  cases other
  cases assembly
  cases hbytecode
  cases hpasses
  cases hmetadata
  cases hheight
  rfl

/-- As many passes as `branchOver` needs, with every operand verified. -/
def tight : AssemblySettings := { passes := 2, verify := true, measureStack := false }

/-- More passes, no operand verified, and the stack measured. -/
def roomy : AssemblySettings := { passes := 40, verify := false, measureStack := true }

theorem roomy_looserThan_tight : roomy.LooserThan tight := ⟨by decide, by decide⟩

theorem branchOver_tight : branchOver.assemble tight = .ok branchOverCode := by
  have hlinear : branchOver.linearize = .ok branchOver.leaves :=
    Graph.linearize_chain rfl (by decide) ⟨.inl rfl, rfl⟩ rfl
  rw [Graph.assemble, Graph.flatten, hlinear]
  rfl

theorem branchOver_looser :
    roomy.LooserThan tight ∧ branchOver.assemble tight = .ok branchOverCode ∧
      ∃ other, branchOver.assemble roomy = .ok other ∧
        other.bytecode = branchOverCode.bytecode ∧ other.passes = 2 ∧
        (roomy.measureStack = tight.measureStack → other = branchOverCode) :=
  ⟨roomy_looserThan_tight, branchOver_tight,
    assemble_of_looser roomy_looserThan_tight branchOver_tight⟩

end Assembly
end StackCode
