import StackCode.Assembly.StackHeight
import StackCode.Proofs.Assembly.Layout

/-!
Slots that are alike.  The layout, the code and the stack height of slots depend on their opcodes,
arguments and targets, and on nothing else of their instructions.
-/

namespace StackCode

/-- Slots that differ at most in how their operands are written. -/
structure Slot.Alike (isa : InstructionSet) (slot slot' : Slot) : Prop where
  opcode : slot'.instruction.opcode = slot.instruction.opcode
  kind : slot'.kind = slot.kind
  argument : slot'.argument = slot.argument
  target : slot'.target = slot.target
  stackEffect : slot'.instruction.stackEffect isa = slot.instruction.stackEffect isa

section Alike

variable {isa : InstructionSet} {slots slots' : List Slot}

namespace Layout

theorem slotWidth_alike {slot slot' : Slot} (h : Slot.Alike isa slot slot') (unit target : Nat) :
    slotWidth slot' unit target = slotWidth slot unit target := by
  rw [slotWidth, slotWidth, h.target, h.kind, h.argument]

theorem targetUnit_alike {slot slot' : Slot} (h : Slot.Alike isa slot slot')
    (previous placed : Array Nat) :
    targetUnit previous placed slot' = targetUnit previous placed slot := by
  rw [targetUnit, targetUnit, h.target]

theorem place_alike (previous : Array Nat) (h : List.Forall₂ (Slot.Alike isa) slots slots') :
    ∀ (unit : Nat) (placed : Array Nat) (widths : List Width),
      place previous unit placed widths slots' = place previous unit placed widths slots := by
  induction h with
  | nil =>
    intro unit placed widths
    rfl
  | cons hslot hrest ih =>
    intro unit placed widths
    simp only [place, targetUnit_alike hslot, slotWidth_alike hslot, ih]

theorem settle_alike (h : List.Forall₂ (Slot.Alike isa) slots slots') :
    ∀ (budget passes : Nat) (previous : Array Nat),
      settle slots' budget passes previous = settle slots budget passes previous := by
  intro budget
  induction budget with
  | zero =>
    intro passes previous
    rfl
  | succ budget ih =>
    intro passes previous
    simp only [settle, place_alike previous h, ih]

theorem ofSlots_alike (h : List.Forall₂ (Slot.Alike isa) slots slots') (budget : Nat) :
    ofSlots slots' budget = ofSlots slots budget := by
  simp only [ofSlots, settle_alike h, h.length_eq]

theorem code_alike (h : List.Forall₂ (Slot.Alike isa) slots slots') (extension : UInt8) :
    ∀ widths, code extension slots' widths = code extension slots widths := by
  induction h with
  | nil =>
    intro widths
    rfl
  | cons hslot hrest ih =>
    intro widths
    cases widths with
    | nil => simp [code]
    | cons width widths =>
      have hothers := ih widths
      simp only [code, List.zip_cons_cons, List.flatMap_cons, hslot.opcode] at hothers ⊢
      rw [hothers]

end Layout

namespace StackHeight

theorem run_alike (h : List.Forall₂ (Slot.Alike isa) slots slots') :
    ∀ (fuel : Nat) (visit : Visit),
      Visit.run isa slots'.toArray fuel visit = Visit.run isa slots.toArray fuel visit := by
  intro fuel
  induction fuel with
  | zero =>
    intro visit
    rfl
  | succ fuel ih =>
    intro visit
    rw [Visit.run, Visit.run]
    cases visit.pending with
    | nil => rfl
    | cons index pending =>
      simp only [List.getElem?_toArray]
      cases hslot : slots[index]? with
      | none =>
        have hnone : slots'[index]? = none := by
          rw [List.getElem?_eq_none_iff] at hslot ⊢
          rw [← h.length_eq]
          exact hslot
        rw [hnone]
        exact ih _
      | some slot =>
        obtain ⟨slot', hslot', halike⟩ := Outcome.exists_of_getElem? h hslot
        have hsuccessors : successors isa index slot' = successors isa index slot := by
          rw [successors, halike.opcode, halike.target, ← successors]
        rw [hslot']
        simp only [halike.stackEffect, hsuccessors, ih]

theorem peak_alike (h : List.Forall₂ (Slot.Alike isa) slots slots') :
    peak isa slots' = peak isa slots := by
  simp only [peak, run_alike h, List.size_toArray, h.length_eq]

end StackHeight

end Alike

end StackCode
