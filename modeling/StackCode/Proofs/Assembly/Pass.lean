import StackCode.Proofs.Assembly.Overtaken

/-!
Passes over slots without relative branches.  Such a pass depends on the offsets in front of it in
a monotone way: where targets stood further behind, each slot takes as many units as before or
more, and so stands where it stood or further behind.
-/

namespace StackCode

open Encoding Outcome

/-- The argument of a slot that does not branch by a distance, where slots stand at `units`. -/
def Slot.argumentIn (units : Nat → Nat) (slot : Slot) : Nat :=
  match slot.target with
  | none => slot.argument
  | some target => units target

/-- No slot branches by a distance. -/
def Flat.Absolute (slots : List Slot) : Prop := ∀ slot ∈ slots, slot.kind ≠ .relativeJump

/-- The number of slots that branch. -/
def Flat.branches (slots : List Slot) : Nat := slots.countP (·.target.isSome)

namespace Layout

/-- The unit at which a slot stands.  Nothing stands behind the end. -/
def unitAt (offsets : Array Nat) (index : Nat) : Nat := offsets[index]?.getD 0

/-- Where slot `index` finds targets: slots that are placed already at their new units, and the
others where they stood before. -/
def seenFrom (index : Nat) (previous units : Nat → Nat) (target : Nat) : Nat :=
  if target ≤ index then units target else previous target

theorem seenFrom_self (index : Nat) (units : Nat → Nat) : seenFrom index units units = units := by
  funext target
  rw [seenFrom]
  split <;> rfl

/-- The units that each slot takes where targets stood at `previous`. -/
structure Pass (slots : List Slot) (previous units : Nat → Nat) : Prop where
  start : units 0 = 0
  step : ∀ (index : Nat) (slot : Slot), slots[index]? = some slot →
    units (index + 1) =
      units index + 1 + extensionCount (slot.argumentIn (seenFrom index previous units))
  stop : ∀ index, slots.length < index → units index = 0

/-- Units that leave every slot the room it takes. -/
structure Roomed (slots : List Slot) (previous units : Nat → Nat) : Prop where
  start : units 0 = 0
  step : ∀ (index : Nat) (slot : Slot), slots[index]? = some slot →
    units index + 1 + extensionCount (slot.argumentIn (seenFrom index previous units)) ≤
      units (index + 1)

theorem Pass.roomed {slots : List Slot} {previous units : Nat → Nat}
    (h : Pass slots previous units) : Roomed slots previous units :=
  ⟨h.start, fun index slot hslot => Nat.le_of_eq (h.step index slot hslot).symm⟩

/-! ### Passes of the assembler -/

theorem slotWidth_of_absolute {slot : Slot} (hkind : slot.kind ≠ .relativeJump)
    {units : Nat → Nat} {aim : Nat}
    (haim : ∀ target, slot.target = some target → aim = units target) (unit : Nat) :
    slotWidth slot unit aim = .ok (plain (slot.argumentIn units)) := by
  rw [slotWidth, Slot.argumentIn]
  cases htarget : slot.target with
  | none => rfl
  | some target =>
    rw [haim target htarget]
    cases hslot : slot.kind <;> first | rfl | exact absurd hslot hkind

theorem slotWidth_unitOf {offsets : Array Nat} {slot : Slot} (hkind : slot.kind ≠ .relativeJump)
    (unit : Nat) : slotWidth slot unit (unitOf offsets slot) =
      .ok (plain (slot.argumentIn (unitAt offsets))) := by
  refine slotWidth_of_absolute hkind (fun target htarget => ?_) unit
  rw [unitOf, htarget]
  rfl

theorem targetUnit_eq {previous placed : Array Nat} {slot : Slot} {target : Nat}
    (htarget : slot.target = some target) :
    targetUnit previous placed slot = (placed[target]?.or previous[target]?).getD 0 := by
  rw [targetUnit, htarget]

/-- What a pass leaves behind the slots that it has placed. -/
theorem place_steps {previous : Array Nat} (slots : List Slot) (habsolute : Flat.Absolute slots) :
    ∀ {unit : Nat} {placed offsets : Array Nat} {widths result : List Width},
      place previous unit placed widths slots = .ok (offsets, result) →
      offsets.size = placed.size + slots.length + 1 ∧
        (∀ index, index < placed.size → offsets[index]? = placed[index]?) ∧
        unitAt offsets placed.size = unit ∧
        ∀ (index : Nat) (slot : Slot), slots[index]? = some slot →
          unitAt offsets (placed.size + index + 1) =
            unitAt offsets (placed.size + index) + 1 + extensionCount (slot.argumentIn
              (seenFrom (placed.size + index) (unitAt previous) (unitAt offsets))) := by
  induction slots with
  | nil =>
    intro unit placed offsets widths result h
    obtain ⟨-, rfl, -⟩ := place_nil.mp h
    refine ⟨by simp, fun index hindex => ?_, by simp [unitAt], fun index slot hslot => ?_⟩
    · rw [Array.getElem?_push, if_neg (by omega)]
    · cases hslot
  | cons first rest ih =>
    intro unit placed offsets widths result h
    obtain ⟨hfirst, hrest⟩ := List.forall_mem_cons.mp habsolute
    obtain ⟨-, width, hwidth, h⟩ := place_cons.mp h
    obtain ⟨hsize, hplaced, hnext, hsteps⟩ := ih hrest h
    simp only [Array.size_push] at hsize hplaced hnext hsteps
    have hunit : unitAt offsets placed.size = unit := by
      rw [unitAt, hplaced _ (Nat.lt_succ_self _), Array.getElem?_push_size, Option.getD_some]
    -- The units placed so far are final, and the others are not known yet.
    have hseen : ∀ target, first.target = some target →
        targetUnit previous (placed.push unit) first =
          seenFrom placed.size (unitAt previous) (unitAt offsets) target := by
      intro target hto
      rw [targetUnit_eq hto, seenFrom]
      by_cases htarget : target ≤ placed.size
      · rw [if_pos htarget, unitAt, hplaced target (by omega), Array.getElem?_eq_getElem
          (by rw [Array.size_push]; omega), Option.some_or]
      · rw [if_neg htarget, unitAt, Array.getElem?_eq_none (by rw [Array.size_push]; omega),
          Option.none_or]
    refine ⟨by rw [hsize, List.length_cons]; omega, fun index hindex => ?_, hunit,
      fun index slot hslot => ?_⟩
    · rw [hplaced index (by omega), Array.getElem?_push, if_neg (by omega)]
    · cases index with
      | zero =>
        rw [List.getElem?_cons_zero, Option.some.injEq] at hslot
        rw [slotWidth_of_absolute hfirst hseen, Except.ok.injEq] at hwidth
        simp only [Nat.add_zero]
        rw [hnext, hunit, ← hslot, ← hwidth]
        exact Nat.add_right_comm _ _ _
      | succ index =>
        rw [List.getElem?_cons_succ] at hslot
        have hstep := hsteps index slot hslot
        rwa [Nat.add_right_comm placed.size 1 index] at hstep

theorem pass_of_place {slots : List Slot} (habsolute : Flat.Absolute slots)
    {previous offsets : Array Nat} {widths : List Width}
    (h : place previous 0 #[] [] slots = .ok (offsets, widths)) :
    offsets.size = slots.length + 1 ∧ Pass slots (unitAt previous) (unitAt offsets) := by
  obtain ⟨hsize, -, hstart, hsteps⟩ := place_steps slots habsolute h
  simp only [Array.size_empty, Nat.zero_add] at hsize hstart hsteps
  refine ⟨hsize, hstart, hsteps, fun index hindex => ?_⟩
  rw [unitAt, Array.getElem?_eq_none (by omega), Option.getD_none]

/-- Slots that cannot leave the address space are placed. -/
theorem exists_place (slots : List Slot) (habsolute : Flat.Absolute slots) (previous : Array Nat) :
    ∀ (unit : Nat) (placed : Array Nat) (widths : List Width),
      unit + 4 * slots.length < 0x100000000 →
      ∃ offsets result, place previous unit placed widths slots = .ok (offsets, result) := by
  induction slots with
  | nil =>
    intro unit placed widths hunit
    exact ⟨_, _, place_nil.mpr ⟨by simpa using hunit, rfl, rfl⟩⟩
  | cons slot rest ih =>
    intro unit placed widths hunit
    obtain ⟨hslot, hrest⟩ := List.forall_mem_cons.mp habsolute
    rw [List.length_cons] at hunit
    obtain ⟨width, hwidth⟩ : ∃ width,
        slotWidth slot unit (targetUnit previous (placed.push unit) slot) = .ok width :=
      ⟨_, slotWidth_of_absolute hslot (fun _ => targetUnit_eq) unit⟩
    have hcount : width.extensions ≤ 3 := slotWidth_extensions_le hwidth
    obtain ⟨offsets, result, h⟩ :=
      ih hrest (unit + width.extensions + 1) (placed.push unit) (width :: widths) (by omega)
    exact ⟨offsets, result, place_cons.mpr ⟨by omega, width, hwidth, h⟩⟩

/-! ### Order -/

theorem extensionCount_mono {argument argument' : Nat} (h : argument ≤ argument') :
    extensionCount argument ≤ extensionCount argument' := by
  rw [extensionCount, extensionCount]
  repeat' split
  all_goals omega

theorem argumentIn_mono {units bound : Nat → Nat} {slot : Slot}
    (h : ∀ target, slot.target = some target → units target ≤ bound target) :
    slot.argumentIn units ≤ slot.argumentIn bound := by
  rw [Slot.argumentIn, Slot.argumentIn]
  cases htarget : slot.target with
  | none => exact Nat.le_refl _
  | some target => exact h target htarget

section Order

variable {slots : List Slot} {previous units previous' bound : Nat → Nat}

/-- Slots that are aimed no further behind and stand no further behind take no more units. -/
theorem count_le (hprevious : ∀ index, previous index ≤ previous' index) {index : Nat}
    (hunits : ∀ earlier ≤ index, units earlier ≤ bound earlier) (slot : Slot) :
    extensionCount (slot.argumentIn (seenFrom index previous units)) ≤
      extensionCount (slot.argumentIn (seenFrom index previous' bound)) := by
  refine extensionCount_mono (argumentIn_mono fun target _ => ?_)
  rw [seenFrom, seenFrom]
  split
  · rename_i hle
    exact hunits target hle
  · exact hprevious target

/-- A pass gives the least units that leave every slot its room. -/
theorem Pass.le (h : Pass slots previous units) (hbound : Roomed slots previous' bound)
    (hprevious : ∀ index, previous index ≤ previous' index) :
    ∀ index, units index ≤ bound index := by
  intro index
  by_cases hinside : index ≤ slots.length
  · induction index using Nat.strong_induction_on with
    | _ index ih =>
      cases index with
      | zero => rw [h.start]; exact Nat.zero_le _
      | succ index =>
        have hslot : slots[index]? = some slots[index] := List.getElem?_eq_getElem (by omega)
        have hstep := h.step index _ hslot
        have hroom := hbound.step index _ hslot
        have hearlier : ∀ earlier ≤ index, units earlier ≤ bound earlier :=
          fun earlier hle => ih earlier (by omega) (by omega)
        have hcount := count_le hprevious hearlier slots[index]
        have hindex := hearlier index (Nat.le_refl _)
        omega
  · rw [h.stop index (by omega)]
    exact Nat.zero_le _

/-- The distance between a pass and such units grows from slot to slot. -/
theorem Pass.gap_le (h : Pass slots previous units) (hbound : Roomed slots previous' bound)
    (hprevious : ∀ index, previous index ≤ previous' index) {index : Nat}
    (hindex : index ≤ slots.length) :
    bound index + units slots.length ≤ bound slots.length + units index := by
  have hle := h.le hbound hprevious
  induction hindex using Nat.decreasingInduction with
  | self => exact Nat.le_refl _
  | of_succ index hlt ih =>
    have hslot : slots[index]? = some slots[index] := List.getElem?_eq_getElem hlt
    have hstep := h.step index _ hslot
    have hroom := hbound.step index _ hslot
    have hcount := count_le hprevious (fun earlier (_ : earlier ≤ index) => hle earlier)
      slots[index]
    omega

/-- Passes that end at one unit are the same. -/
theorem Pass.eq_of_stop (h : Pass slots previous units) (hbound : Pass slots previous' bound)
    (hprevious : ∀ index, previous index ≤ previous' index)
    (hstop : bound slots.length ≤ units slots.length) : units = bound := by
  funext index
  have hle : units index ≤ bound index := h.le hbound.roomed hprevious index
  by_cases hinside : index ≤ slots.length
  · have hgap := h.gap_le hbound.roomed hprevious hinside
    omega
  · rw [h.stop index (by omega), hbound.stop index (by omega)]

end Order

/-- Any two passes differ by the extension units of branches. -/
theorem Pass.le_add {slots : List Slot} {previous units previous' units' : Nat → Nat}
    (h : Pass slots previous units) (h' : Pass slots previous' units') :
    ∀ index ≤ slots.length, units' index ≤ units index + 3 * Flat.branches (slots.take index) := by
  intro index
  induction index with
  | zero =>
    intro _
    rw [h'.start]
    exact Nat.zero_le _
  | succ index ih =>
    intro hindex
    have hslot : slots[index]? = some slots[index] := List.getElem?_eq_getElem (by omega)
    have hstep := h.step index _ hslot
    have hstep' := h'.step index _ hslot
    have hearlier := ih (by omega)
    rw [List.take_add_one, hslot, Flat.branches, List.countP_append]
    rw [Flat.branches] at hearlier
    cases htarget : slots[index].target with
    | none =>
      simp only [Slot.argumentIn, htarget] at hstep hstep'
      omega
    | some target =>
      have hone : List.countP (fun slot : Slot => slot.target.isSome) (some slots[index]).toList =
          1 := by simp [htarget]
      have hcount : extensionCount (slots[index].argumentIn
          (seenFrom index previous' units')) ≤ 3 := extensionCount_le _
      omega

end Layout
end StackCode
