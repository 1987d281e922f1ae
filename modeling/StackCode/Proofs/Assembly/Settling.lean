import StackCode.Proofs.Assembly.Pass

/-!
Layouts that settle.  Without relative branches the offsets only ever rise from pass to pass, and a
pass that does not settle gives some branch one more extension unit.  There are three for each
branch, so that the number of branches bounds the number of passes.
-/

namespace StackCode
namespace Layout

open Encoding

/-! ### Rising offsets -/

theorem unitAt_range (count index : Nat) :
    unitAt (Array.range count) index = if index < count then index else 0 := by
  rw [unitAt]
  by_cases hindex : index < count
  · rw [if_pos hindex, Array.getElem?_range, if_pos hindex]
    rfl
  · rw [if_neg hindex, Array.getElem?_eq_none (by rw [Array.size_range]; omega)]
    rfl

/-- Offsets of one size are the same if all units are. -/
theorem eq_of_unitAt {offsets offsets' : Array Nat} (hsize : offsets.size = offsets'.size)
    (h : unitAt offsets = unitAt offsets') : offsets = offsets' := by
  refine Array.ext hsize fun index hindex hindex' => ?_
  have hunit := congrFun h index
  rwa [unitAt, unitAt, Array.getElem?_eq_getElem hindex, Array.getElem?_eq_getElem hindex'] at hunit

/-- Every slot takes at least one unit. -/
theorem Roomed.index_le {slots : List Slot} {previous units : Nat → Nat}
    (h : Roomed slots previous units) : ∀ index ≤ slots.length, index ≤ units index := by
  intro index
  induction index with
  | zero => exact fun _ => Nat.zero_le _
  | succ index ih =>
    intro hindex
    have hstep := h.step index _ (List.getElem?_eq_getElem hindex)
    have hearlier := ih (by omega)
    omega

theorem Roomed.mono {slots : List Slot} {previous units : Nat → Nat}
    (h : Roomed slots previous units) {index : Nat} (hindex : index ≤ slots.length) :
    units index ≤ units slots.length := by
  induction hindex using Nat.decreasingInduction with
  | self => exact Nat.le_refl _
  | of_succ index hlt ih =>
    have hstep := h.step index _ (List.getElem?_eq_getElem hlt)
    omega

/-- The first pass starts from the least offsets. -/
theorem Roomed.range_le {slots : List Slot} {previous units : Nat → Nat}
    (h : Roomed slots previous units) (index : Nat) :
    unitAt (Array.range (slots.length + 1)) index ≤ units index := by
  rw [unitAt_range]
  split
  · exact h.index_le index (by omega)
  · exact Nat.zero_le _

/-- Passes over such offsets go through, and give such offsets again. -/
def Passable (slots : List Slot) (within : Array Nat → Prop) : Prop :=
  ∀ previous, within previous → ∃ offsets widths,
    place previous 0 #[] [] slots = .ok (offsets, widths) ∧ within offsets

/-- Offsets of a pass over targets that stood nowhere further behind. -/
structure Risen (slots : List Slot) (offsets : Array Nat) : Prop where
  size : offsets.size = slots.length + 1
  pass : ∃ previous, Pass slots previous (unitAt offsets) ∧
    ∀ index, previous index ≤ unitAt offsets index

section Absolute

variable {slots : List Slot} (habsolute : Flat.Absolute slots)
include habsolute

/-- Slots are placed in front of where they stand in offsets that leave each its room, as long as
their targets stood in front of theirs. -/
theorem exists_place_of_roomed {bound : Nat → Nat} (hbound : Roomed slots bound bound)
    (hstop : bound slots.length < 0x100000000) {previous : Array Nat}
    (hprevious : ∀ index, unitAt previous index ≤ bound index) (rest : List Slot) :
    ∀ (front : List Slot) (unit : Nat) (placed : Array Nat) (widths : List Width),
      slots = front ++ rest → placed.size = front.length → unit ≤ bound front.length →
      (∀ index, unitAt placed index ≤ bound index) →
      ∃ offsets result, place previous unit placed widths rest = .ok (offsets, result) := by
  induction rest with
  | nil =>
    intro front unit placed widths hsplit _ hunit _
    rw [hsplit, List.append_nil] at hstop
    exact ⟨_, _, place_nil.mpr ⟨Nat.lt_of_le_of_lt hunit hstop, rfl, rfl⟩⟩
  | cons slot rest ih =>
    intro front unit placed widths hsplit hsize hunit hplaced
    have hat : slots[front.length]? = some slot := by rw [hsplit]; simp
    have hslot : slot.kind ≠ .relativeJump := habsolute slot (List.mem_of_getElem? hat)
    have hpushed : ∀ index, unitAt (placed.push unit) index ≤ bound index := by
      intro index
      rw [unitAt, Array.getElem?_push]
      split
      · rename_i hlast
        rw [hlast, hsize]
        exact hunit
      · exact hplaced index
    have hseen : ∀ target, ((placed.push unit)[target]?.or previous[target]?).getD 0 ≤
        bound target := by
      intro target
      have hnew := hpushed target
      rw [unitAt] at hnew
      cases hfound : (placed.push unit)[target]? with
      | none => exact hprevious target
      | some place => rwa [hfound] at hnew
    obtain ⟨seen, hle, hwidth⟩ : ∃ seen : Nat → Nat, (∀ target, seen target ≤ bound target) ∧
        slotWidth slot unit (targetUnit previous (placed.push unit) slot) =
          .ok (plain (slot.argumentIn seen)) :=
      ⟨_, hseen, slotWidth_of_absolute hslot (fun _ => targetUnit_eq) unit⟩
    have hcount : extensionCount (slot.argumentIn seen) ≤ extensionCount (slot.argumentIn bound) :=
      extensionCount_mono (argumentIn_mono fun target _ => hle target)
    have hroom := hbound.step front.length slot hat
    rw [seenFrom_self] at hroom
    have hnext : unit + (plain (slot.argumentIn seen)).extensions + 1 ≤
        bound (front.length + 1) := by
      show unit + extensionCount (slot.argumentIn seen) + 1 ≤ bound (front.length + 1)
      omega
    have hlast : bound front.length ≤ bound slots.length := hbound.mono (by rw [hsplit]; simp)
    obtain ⟨offsets, result, hplace⟩ := ih (front ++ [slot])
      (unit + (plain (slot.argumentIn seen)).extensions + 1) (placed.push unit)
      (plain (slot.argumentIn seen) :: widths) (by simp [hsplit]) (by simp [hsize])
      (by simpa using hnext) hpushed
    exact ⟨offsets, result, place_cons.mpr ⟨by omega, _, hwidth, hplace⟩⟩

/-- Passes from below offsets that leave every slot its room stay below them. -/
theorem passable_of_roomed {bound : Nat → Nat} (hbound : Roomed slots bound bound)
    (hstop : bound slots.length < 0x100000000) :
    Passable slots fun offsets => ∀ index, unitAt offsets index ≤ bound index := by
  intro previous hprevious
  obtain ⟨offsets, widths, hplace⟩ := exists_place_of_roomed habsolute hbound hstop hprevious slots
    [] 0 #[] [] rfl rfl (Nat.zero_le _) fun _ => Nat.zero_le _
  exact ⟨offsets, widths, hplace, (pass_of_place habsolute hplace).2.le hbound hprevious⟩

/-- The first pass raises offsets. -/
theorem risen_of_range {offsets : Array Nat} {widths : List Width}
    (h : place (Array.range (slots.length + 1)) 0 #[] [] slots = .ok (offsets, widths)) :
    Risen slots offsets := by
  obtain ⟨hsize, hpass⟩ := pass_of_place habsolute h
  exact ⟨hsize, _, hpass, hpass.roomed.range_le⟩

/-- Each further pass raises them again. -/
theorem Risen.rise {previous offsets : Array Nat} {widths : List Width}
    (h : Risen slots previous) (hplace : place previous 0 #[] [] slots = .ok (offsets, widths)) :
    Risen slots offsets ∧ ∀ index, unitAt previous index ≤ unitAt offsets index := by
  obtain ⟨-, earlier, hearlier, hle⟩ := h
  obtain ⟨hsize, hpass⟩ := pass_of_place habsolute hplace
  have hrise := hearlier.le hpass.roomed hle
  exact ⟨⟨hsize, _, hpass, hrise⟩, hrise⟩

theorem Risen.unsettled {passes : Nat} {previous later : Array Nat} (h : Risen slots previous)
    (hpasses : Unsettled slots passes previous later) : Risen slots later := by
  induction hpasses with
  | start => exact h
  | pass hplace _ _ ih => exact ih (h.rise habsolute hplace).1

/-- A pass that changes offsets moves the end on. -/
theorem Risen.stop_lt {previous offsets : Array Nat} {widths : List Width}
    (h : Risen slots previous)
    (hplace : place previous 0 #[] [] slots = .ok (offsets, widths))
    (hmoved : offsets ≠ previous) :
    unitAt previous slots.length < unitAt offsets slots.length := by
  obtain ⟨hsize, earlier, hearlier, hle⟩ := h
  obtain ⟨hsize', hpass⟩ := pass_of_place habsolute hplace
  by_contra hstop
  have hsame := hearlier.eq_of_stop hpass hle (by omega)
  exact hmoved (eq_of_unitAt (by omega) hsame.symm)

/-- Settling takes no more passes than there are units left between the end and what it can
reach. -/
theorem Risen.settle {within : Array Nat → Prop} (hpassable : Passable slots within)
    {least units : Nat → Nat} (hpass : Pass slots least units) :
    ∀ (budget passes room : Nat) {previous : Array Nat}, within previous → Risen slots previous →
      units slots.length + 3 * Flat.branches slots ≤ unitAt previous slots.length + room →
      room < budget →
      ∃ layout count, settle slots budget passes previous = .ok layout ∧
        layout.passes = passes + count + 1 ∧ count ≤ room ∧
        Unsettled slots count previous layout.offsets := by
  intro budget
  induction budget with
  | zero =>
    intro passes room previous _ _ _ hroom
    omega
  | succ budget ih =>
    intro passes room previous hwithin hrisen hreach hroom
    obtain ⟨offsets, widths, hplace, hwithin'⟩ := hpassable previous hwithin
    rw [Layout.settle, hplace]
    simp only
    by_cases hsettled : offsets = previous
    · rw [if_pos hsettled]
      refine ⟨_, 0, rfl, rfl, Nat.zero_le _, ?_⟩
      rw [hsettled]
      exact .start previous
    · rw [if_neg hsettled]
      obtain ⟨hsize, hpass'⟩ := pass_of_place habsolute hplace
      have hmoved := hrisen.stop_lt habsolute hplace hsettled
      have hmost := hpass.le_add hpass' slots.length (Nat.le_refl _)
      rw [List.take_length] at hmost
      obtain ⟨layout, count, hlayout, hpasses, hcount, hunsettled⟩ :=
        ih (passes + 1) (room - 1) hwithin' (hrisen.rise habsolute hplace).1 (by omega) (by omega)
      exact ⟨layout, count + 1, hlayout, by omega, by omega, .pass hplace hsettled hunsettled⟩

/-- The pass behind any number of passes goes through and raises the offsets. -/
theorem place_of_unsettled (hshort : slots.length < 0x40000000) {count : Nat}
    {previous : Array Nat}
    (h : Unsettled slots count (Array.range (slots.length + 1)) previous) :
    ∃ offsets widths, place previous 0 #[] [] slots = .ok (offsets, widths) ∧
      offsets.size = previous.size ∧
      ∀ index, unitAt previous index ≤ unitAt offsets index := by
  obtain ⟨offsets, widths, hplace⟩ := exists_place slots habsolute previous 0 #[] [] (by omega)
  obtain ⟨hsize, hpass⟩ := pass_of_place habsolute hplace
  refine ⟨offsets, widths, hplace, ?_⟩
  cases h with
  | start => exact ⟨by rw [hsize, Array.size_range], hpass.roomed.range_le⟩
  | pass hfirst _ hrest =>
    have hrisen := (risen_of_range habsolute hfirst).unsettled habsolute hrest
    exact ⟨by rw [hsize, hrisen.size], (hrisen.rise habsolute hplace).2⟩

/-- Where all passes go through, the offsets settle. -/
theorem Passable.exists_ofSlots {within : Array Nat → Prop} (hpassable : Passable slots within)
    (hstart : within (Array.range (slots.length + 1))) (hlength : slots.length < 0x100000000)
    {budget : Nat} (hbudget : 3 * Flat.branches slots + 2 ≤ budget) :
    ∃ layout count, ofSlots slots budget = .ok layout ∧ layout.passes = count + 1 ∧
      layout.passes ≤ 3 * Flat.branches slots + 2 ∧
      Unsettled slots count (Array.range (slots.length + 1)) layout.offsets := by
  obtain ⟨offsets, widths, hplace, hwithin⟩ := hpassable _ hstart
  obtain ⟨-, hpass⟩ := pass_of_place habsolute hplace
  obtain ⟨budget, rfl⟩ : ∃ more, budget = more + 1 := ⟨budget - 1, by omega⟩
  rw [ofSlots, if_pos hlength, settle, hplace]
  simp only
  by_cases hsettled : offsets = Array.range (slots.length + 1)
  · rw [if_pos hsettled]
    refine ⟨_, 0, rfl, rfl, by simp only; omega, ?_⟩
    rw [hsettled]
    exact .start _
  · -- The first pass is what the others are measured by.
    rw [if_neg hsettled]
    obtain ⟨layout, count, hlayout, hcount, hroom, hunsettled⟩ :=
      (risen_of_range habsolute hplace).settle habsolute hpassable hpass budget 1
        (3 * Flat.branches slots) hwithin (Nat.le_refl _) (by omega)
    exact ⟨layout, count + 1, hlayout, by omega, by omega, .pass hplace hsettled hunsettled⟩

theorem exists_ofSlots (hshort : slots.length < 0x40000000) {budget : Nat}
    (hbudget : 3 * Flat.branches slots + 2 ≤ budget) :
    ∃ layout count, ofSlots slots budget = .ok layout ∧ layout.passes = count + 1 ∧
      layout.passes ≤ 3 * Flat.branches slots + 2 ∧
      Unsettled slots count (Array.range (slots.length + 1)) layout.offsets := by
  have hpassable : Passable slots fun _ => True := fun previous _ => by
    obtain ⟨offsets, widths, hplace⟩ := exists_place slots habsolute previous 0 #[] [] (by omega)
    exact ⟨offsets, widths, hplace, trivial⟩
  exact hpassable.exists_ofSlots habsolute trivial (by omega) hbudget

/-- Slots that fit one unit each settle at once. -/
theorem ofSlots_of_range (hshort : slots.length < 0x40000000)
    (hrange : Pass slots (unitAt (Array.range (slots.length + 1)))
      (unitAt (Array.range (slots.length + 1)))) (budget : Nat) :
    ∃ widths, ofSlots slots (budget + 1) =
      .ok { offsets := Array.range (slots.length + 1), widths, passes := 1 } := by
  obtain ⟨offsets, widths, hplace⟩ :=
    exists_place slots habsolute (Array.range (slots.length + 1)) 0 #[] [] (by omega)
  obtain ⟨hsize, hpass⟩ := pass_of_place habsolute hplace
  have hsame : offsets = Array.range (slots.length + 1) := by
    refine eq_of_unitAt (by rw [hsize, Array.size_range]) (funext fun index => ?_)
    exact Nat.le_antisymm (hpass.le hrange.roomed (fun _ => Nat.le_refl _) index)
      (hrange.le hpass.roomed (fun _ => Nat.le_refl _) index)
  refine ⟨widths, ?_⟩
  rw [ofSlots, if_pos (by omega), settle, hplace]
  simp only
  rw [if_pos hsame, hsame]

end Absolute

/-- Without relative branches every pass goes through and raises the offsets, and offsets settle
after at most three passes for each branch and two more. -/
theorem ofSlots_settles {slots : List Slot} (habsolute : Flat.Absolute slots)
    (hshort : slots.length < 0x40000000) :
    (∀ count previous, Unsettled slots count (Array.range (slots.length + 1)) previous →
      ∃ offsets widths, place previous 0 #[] [] slots = .ok (offsets, widths) ∧
        offsets.size = previous.size ∧
        ∀ index, unitAt previous index ≤ unitAt offsets index) ∧
    ∀ budget, 3 * Flat.branches slots + 2 ≤ budget →
      ∃ layout count, ofSlots slots budget = .ok layout ∧ layout.passes = count + 1 ∧
        layout.passes ≤ 3 * Flat.branches slots + 2 ∧
        Unsettled slots count (Array.range (slots.length + 1)) layout.offsets :=
  ⟨fun _ _ => place_of_unsettled habsolute hshort, fun _ => exists_ofSlots habsolute hshort⟩

/-- A branch to slot `target`, followed by 255 slots without argument. -/
def longBranch (target : Nat) : List Slot :=
  { instruction := { opcode := 113, operand := .label { block := 1, index := 0 } }
    kind := .absoluteJump, argument := 0, target := some target } ::
  List.replicate 255 { instruction := .simple 9, kind := .none, argument := 0, target := none }

theorem absolute_longBranch (target : Nat) : Flat.Absolute (longBranch target) := by
  intro slot hslot
  rcases List.mem_cons.mp hslot with rfl | hslot
  · exact OperandKind.noConfusion
  · rw [List.eq_of_mem_replicate hslot]
    exact OperandKind.noConfusion

theorem length_longBranch (target : Nat) : (longBranch target).length = 256 := by
  rw [longBranch, List.length_cons, List.length_replicate]

theorem branches_longBranch (target : Nat) : Flat.branches (longBranch target) = 1 := by
  rw [Flat.branches, longBranch, List.countP_cons, List.countP_replicate]
  rfl

/-- The end, to which the branch is aimed, is the first unit that takes an extension unit. -/
theorem longBranch_settles : Flat.Absolute (longBranch 256) ∧
    (longBranch 256).length < 0x40000000 ∧
    ∃ layout count, ofSlots (longBranch 256) 5 = .ok layout ∧ layout.passes = count + 1 ∧
      layout.passes ≤ 5 ∧
      Unsettled (longBranch 256) count (Array.range 257) layout.offsets := by
  have hshort : (longBranch 256).length < 0x40000000 := by
    rw [length_longBranch]
    decide
  have h := (ofSlots_settles (absolute_longBranch 256) hshort).2 5
  rw [branches_longBranch, length_longBranch] at h
  exact ⟨absolute_longBranch 256, hshort, h (by decide)⟩

end Layout
end StackCode
