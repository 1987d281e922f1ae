import StackCode.Assembly.Layout
import StackCode.Proofs.Bytecode.Stream

/-!
Settled layouts.  Once a pass gives the offsets it was given, every branch was placed with the
unit its target really has, and the code reads back as the slots it was made from.
-/

namespace StackCode
namespace Layout

open Encoding Outcome

/-- Where the target of a slot stands. -/
def unitOf (offsets : Array Nat) (slot : Slot) : Nat :=
  (slot.target.bind fun target => offsets[target]?).getD 0

/-- `slots` stand at `units`, from `unit` on, with widths that fit targets at `offsets`.  The last
of the units is the end of the slots. -/
inductive Placed (offsets : Array Nat) :
    (unit : Nat) → List Slot → (units : List Nat) → List Width → Prop
  | nil {unit : Nat} (hunit : unit < 0x100000000) : Placed offsets unit [] [unit] []
  | cons {unit : Nat} {slot : Slot} {slots : List Slot} {units : List Nat} {width : Width}
      {widths : List Width} (hunit : unit < 0x100000000)
      (hwidth : slotWidth slot unit (unitOf offsets slot) = .ok width)
      (hrest : Placed offsets (unit + width.extensions + 1) slots units widths) :
      Placed offsets unit (slot :: slots) (unit :: units) (width :: widths)

/-! ### Passes -/

theorem place_nil {previous placed offsets : Array Nat} {unit : Nat}
    {widths result : List Width} :
    place previous unit placed widths [] = .ok (offsets, result) ↔
      unit < 0x100000000 ∧ offsets = placed.push unit ∧ result = widths.reverse := by
  rw [place, checkUnit]
  by_cases hunit : unit < 0x100000000
  · rw [if_pos hunit]
    simp only [Except.ok.injEq, Prod.mk.injEq]
    constructor
    · rintro ⟨rfl, rfl⟩
      exact ⟨hunit, rfl, rfl⟩
    · rintro ⟨-, rfl, rfl⟩
      exact ⟨rfl, rfl⟩
  · rw [if_neg hunit]
    constructor
    · intro h
      cases h
    · rintro ⟨h, -⟩
      exact absurd h hunit

theorem place_cons {previous placed offsets : Array Nat} {unit : Nat}
    {widths result : List Width} {slot : Slot} {rest : List Slot} :
    place previous unit placed widths (slot :: rest) = .ok (offsets, result) ↔
      unit < 0x100000000 ∧ ∃ width,
        slotWidth slot unit (targetUnit previous (placed.push unit) slot) = .ok width ∧
        place previous (unit + width.extensions + 1) (placed.push unit) (width :: widths) rest =
          .ok (offsets, result) := by
  rw [place, checkUnit]
  by_cases hunit : unit < 0x100000000
  · rw [if_pos hunit]
    simp only
    cases hwidth : slotWidth slot unit (targetUnit previous (placed.push unit) slot) with
    | error error => simp
    | ok width =>
      constructor
      · intro h
        exact ⟨hunit, width, rfl, h⟩
      · rintro ⟨-, other, hother, h⟩
        cases hother
        exact h
  · rw [if_neg hunit]
    constructor
    · intro h
      cases h
    · rintro ⟨h, -⟩
      exact absurd h hunit

theorem targetUnit_of_extends {previous placed : Array Nat} {units : List Nat}
    (h : previous.toList = placed.toList ++ units) (slot : Slot) :
    targetUnit previous placed slot = unitOf previous slot := by
  rw [targetUnit, unitOf]
  cases slot.target with
  | none => rfl
  | some target =>
    simp only [Option.bind_some]
    rw [← Array.getElem?_toList, ← Array.getElem?_toList, h]
    cases hplaced : placed.toList[target]? with
    | none => rw [Option.none_or]
    | some unit =>
      obtain ⟨hlt, -⟩ := List.getElem?_eq_some_iff.mp hplaced
      rw [List.getElem?_append_left hlt, hplaced, Option.some_or]

/-- A pass that gives the offsets it was given has placed every slot for good. -/
theorem placed_of_place {offsets : Array Nat} (slots : List Slot) :
    ∀ {unit : Nat} {placed : Array Nat} {widths result : List Width},
      place offsets unit placed widths slots = .ok (offsets, result) →
      ∃ units widths', offsets.toList = placed.toList ++ units ∧
        result = widths.reverse ++ widths' ∧ Placed offsets unit slots units widths' := by
  induction slots with
  | nil =>
    intro unit placed widths result h
    obtain ⟨hunit, hoffsets, rfl⟩ := place_nil.mp h
    refine ⟨[unit], [], ?_, (List.append_nil _).symm, .nil hunit⟩
    conv_lhs => rw [hoffsets]
    exact Array.toList_push
  | cons slot rest ih =>
    intro unit placed widths result h
    obtain ⟨hunit, width, hwidth, h⟩ := place_cons.mp h
    obtain ⟨units, widths', hoffsets, rfl, hplaced⟩ := ih h
    rw [targetUnit_of_extends hoffsets] at hwidth
    refine ⟨unit :: units, width :: widths', ?_, ?_, .cons hunit hwidth hplaced⟩
    · rw [hoffsets, Array.toList_push, List.append_assoc, List.singleton_append]
    · rw [List.reverse_cons, List.append_assoc, List.singleton_append]

theorem settle_eq_ok {slots : List Slot} {layout : Layout} :
    ∀ {budget passes : Nat} {previous : Array Nat},
      settle slots budget passes previous = .ok layout →
      place layout.offsets 0 #[] [] slots = .ok (layout.offsets, layout.widths) := by
  intro budget
  induction budget with
  | zero =>
    intro passes previous h
    cases h
  | succ budget ih =>
    intro passes previous h
    rw [settle] at h
    cases hplace : place previous 0 #[] [] slots with
    | error error => rw [hplace] at h; cases h
    | ok result =>
      obtain ⟨offsets, widths⟩ := result
      rw [hplace] at h
      simp only at h
      split at h
      · rename_i hsettled
        cases h
        rw [hsettled] at hplace ⊢
        exact hplace
      · exact ih h

theorem placed_of_ofSlots {slots : List Slot} {budget : Nat} {layout : Layout}
    (h : ofSlots slots budget = .ok layout) :
    Placed layout.offsets 0 slots layout.offsets.toList layout.widths := by
  rw [ofSlots] at h
  split at h
  · obtain ⟨units, widths, hunits, hwidths, hplaced⟩ := placed_of_place slots (settle_eq_ok h)
    rw [List.reverse_nil, List.nil_append] at hwidths
    rwa [hunits, hwidths]
  · cases h

end Layout
end StackCode
