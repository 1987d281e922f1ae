import StackCode.Proofs.Assembly.Settling

/-!
The shortest layout.  Several layouts of the same slots can be consistent, as an extension unit can
be what moves a target so far that the extension unit is needed.  Settling starts below all of them
and never rises above one, so that it ends at the least, and no encoding of the slots has fewer
units.
-/

namespace StackCode

open Encoding

/-- The slot has an opcode that does not stand for an extension unit, and an argument of its own
fits 32 bits. -/
structure Slot.Encodable (extension : UInt8) (slot : Slot) : Prop where
  opcode : slot.instruction.opcode ≠ extension
  argument : slot.target = none → slot.argument < 0x100000000

namespace Layout

/-- Units at which slots can stand: each leaves room for as many extension units as its argument
needs, which for a branch is the unit of its target. -/
structure Consistent (slots : List Slot) (units : Nat → Nat) : Prop where
  start : units 0 = 0
  step : ∀ (index : Nat) (slot : Slot), slots[index]? = some slot →
    units index + 1 + extensionCount (slot.argumentIn units) ≤ units (index + 1)

/-- `code` is read as the slots from `index` on, where slots stand at `units`: each group carries
the opcode and the argument of its slot. -/
inductive Encodes (extension : UInt8) (units : Nat → Nat) :
    (index : Nat) → (code : List UInt8) → List Slot → Prop
  | nil (index : Nat) : Encodes extension units index [] []
  | cons {index : Nat} {code rest : List UInt8} {group : Decoded.Group} {slot : Slot}
      {slots : List Slot}
      (hread : Decoded.Group.read extension (units index) 0 0 code = .ok (group, rest))
      (hopcode : group.opcode = slot.instruction.opcode)
      (hargument : group.argument = slot.argumentIn units)
      (hnext : units (index + 1) = units index + group.size)
      (hrest : Encodes extension units (index + 1) rest slots) :
      Encodes extension units index code (slot :: slots)

/-- `code` is an encoding of the slots. -/
def IsEncoding (extension : UInt8) (slots : List Slot) (code : List UInt8) : Prop :=
  ∃ units, units 0 = 0 ∧ Encodes extension units 0 code slots

theorem roomed_iff_consistent {slots : List Slot} {units : Nat → Nat} :
    Roomed slots units units ↔ Consistent slots units := by
  constructor
  · rintro ⟨hstart, hstep⟩
    simp only [seenFrom_self] at hstep
    exact ⟨hstart, hstep⟩
  · rintro ⟨hstart, hstep⟩
    refine ⟨hstart, ?_⟩
    simp only [seenFrom_self]
    exact hstep

/-! ### Settling -/

section Absolute

variable {slots : List Slot} (habsolute : Flat.Absolute slots)
include habsolute

/-- Passes from below a consistent layout stay below it. -/
theorem settle_le {units : Nat → Nat} (hunits : Consistent slots units) {layout : Layout} :
    ∀ {budget passes : Nat} {previous : Array Nat},
      (∀ index, unitAt previous index ≤ units index) →
      settle slots budget passes previous = .ok layout →
      ∀ index, unitAt layout.offsets index ≤ units index := by
  intro budget
  induction budget with
  | zero =>
    intro passes previous _ h
    cases h
  | succ budget ih =>
    intro passes previous hprevious h
    rw [settle] at h
    cases hplace : place previous 0 #[] [] slots with
    | error error =>
      rw [hplace] at h
      cases h
    | ok result =>
      obtain ⟨offsets, widths⟩ := result
      have hpass := (pass_of_place habsolute hplace).2
      have hle := hpass.le (roomed_iff_consistent.mpr hunits) hprevious
      rw [hplace] at h
      simp only at h
      split at h
      · cases h
        exact hle
      · exact ih hle h

/-- A pass over a settled layout gives the same layout. -/
theorem pass_of_ofSlots {budget : Nat} {layout : Layout} (h : ofSlots slots budget = .ok layout) :
    Pass slots (unitAt layout.offsets) (unitAt layout.offsets) := by
  rw [ofSlots] at h
  split at h
  · exact (pass_of_place habsolute (settle_eq_ok h)).2
  · cases h

/-- A settled layout is consistent. -/
theorem consistent_of_ofSlots {budget : Nat} {layout : Layout}
    (h : ofSlots slots budget = .ok layout) : Consistent slots (unitAt layout.offsets) :=
  roomed_iff_consistent.mp (pass_of_ofSlots habsolute h).roomed

/-- Settling starts below every consistent layout, and so ends below it. -/
theorem ofSlots_le {units : Nat → Nat} (hunits : Consistent slots units) {budget : Nat}
    {layout : Layout} (h : ofSlots slots budget = .ok layout) :
    ∀ index, unitAt layout.offsets index ≤ units index := by
  have hstart := (roomed_iff_consistent.mpr hunits).range_le
  rw [ofSlots] at h
  split at h
  · exact settle_le habsolute hunits hstart h
  · cases h

/-- A consistent layout that ends where the settled one does is the settled one. -/
theorem unitAt_eq_of_stop {units : Nat → Nat} (hunits : Consistent slots units) {budget : Nat}
    {layout : Layout} (h : ofSlots slots budget = .ok layout)
    (hstop : units slots.length ≤ unitAt layout.offsets slots.length) :
    ∀ index ≤ slots.length, unitAt layout.offsets index = units index := by
  intro index hindex
  have hle := ofSlots_le habsolute hunits h
  have hgap := (pass_of_ofSlots habsolute h).gap_le (roomed_iff_consistent.mpr hunits) hle hindex
  have hhere := hle index
  omega

end Absolute

/-! ### Encodings -/

/-- An argument that fits `count` extension units and its low byte needs no more. -/
theorem extensionCount_le_of_lt {argument count : Nat} (h : argument < 256 ^ (count + 1)) :
    extensionCount argument ≤ count := by
  by_cases hcount : count < maxExtensions
  · have hmost : ∀ count < maxExtensions, extensionCount (256 ^ (count + 1) - 1) ≤ count := by
      decide
    exact Nat.le_trans (extensionCount_mono (Nat.le_sub_one_of_lt h)) (hmost count hcount)
  · exact Nat.le_trans (extensionCount_le argument) (Nat.le_of_not_lt hcount)

/-- Groups have at least the extension units that their arguments need. -/
theorem Encodes.room {extension : UInt8} {units : Nat → Nat} {start : Nat} {code : List UInt8}
    {slots : List Slot} (h : Encodes extension units start code slots) :
    ∀ (index : Nat) (slot : Slot), slots[index]? = some slot →
      units (start + index) + 1 + extensionCount (slot.argumentIn units) ≤
        units (start + index + 1) := by
  induction h with
  | nil =>
    intro index slot hslot
    cases hslot
  | @cons start _ _ group _ _ hread hopcode hargument hnext hrest ih =>
    intro index slot hslot
    cases index with
    | zero =>
      rw [List.getElem?_cons_zero, Option.some.injEq] at hslot
      obtain ⟨hsize, -, -, hfits, -⟩ := Decoded.Group.read_eq_ok (Nat.zero_le _) hread
      obtain ⟨count, hcount⟩ : ∃ count, group.size = count + 1 := ⟨group.size - 1, by omega⟩
      have hlt := hfits Nat.one_pos
      rw [hcount] at hlt
      have hle := extensionCount_le_of_lt hlt
      show units start + 1 + _ ≤ units (start + 1)
      rw [← hslot, ← hargument, hnext]
      omega
    | succ index =>
      have hlater := ih index slot hslot
      rwa [Nat.add_right_comm _ 1 index] at hlater

/-- The units of an encoding are those of its groups. -/
theorem Encodes.length_code {extension : UInt8} {units : Nat → Nat} {start : Nat}
    {code : List UInt8} {slots : List Slot} (h : Encodes extension units start code slots) :
    2 * units start + code.length = 2 * units (start + slots.length) := by
  induction h with
  | nil => rfl
  | cons hread _ _ hnext _ ih =>
    obtain ⟨-, -, -, -, hlength⟩ := Decoded.Group.read_eq_ok (Nat.zero_le _) hread
    rw [List.length_cons, Nat.add_comm _ 1, ← Nat.add_assoc, ← ih, hnext]
    omega

theorem Encodes.consistent {extension : UInt8} {units : Nat → Nat} {code : List UInt8}
    {slots : List Slot} (hstart : units 0 = 0) (h : Encodes extension units 0 code slots) :
    Consistent slots units := by
  refine ⟨hstart, fun index slot hslot => ?_⟩
  have hroom := h.room index slot hslot
  rwa [Nat.zero_add] at hroom

theorem Encodes.encodable {extension : UInt8} {units : Nat → Nat} {start : Nat}
    {code : List UInt8} {slots : List Slot} (h : Encodes extension units start code slots) :
    ∀ slot ∈ slots, slot.Encodable extension := by
  induction h with
  | nil => exact List.forall_mem_nil _
  | cons hread hopcode hargument _ _ ih =>
    obtain ⟨-, hsize, hextension, hfits, -⟩ := Decoded.Group.read_eq_ok (Nat.zero_le _) hread
    refine List.forall_mem_cons.mpr ⟨⟨hopcode ▸ hextension, fun hnone => ?_⟩, ih⟩
    rw [Slot.argumentIn, hnone] at hargument
    simp only at hargument
    have hword := Nat.lt_of_lt_of_le (hfits Nat.one_pos) (Nat.pow_le_pow_right (by decide) hsize)
    exact hargument ▸ hword

theorem unitAt_lt {offsets : Array Nat} (h : ∀ unit ∈ offsets.toList, unit < 0x100000000)
    (index : Nat) : unitAt offsets index < 0x100000000 := by
  rw [unitAt]
  by_cases hindex : index < offsets.size
  · rw [Array.getElem?_eq_getElem hindex]
    exact h _ (Array.getElem_mem_toList hindex)
  · rw [Array.getElem?_eq_none (Nat.le_of_not_lt hindex)]
    decide

/-- Slots that are placed for good have the code that encodes them. -/
theorem Placed.encodes {offsets : Array Nat} {extension : UInt8}
    (hunits : ∀ unit ∈ offsets.toList, unit < 0x100000000) {unit : Nat} {slots : List Slot}
    {units : List Nat} {widths : List Width} (h : Placed offsets unit slots units widths)
    (habsolute : Flat.Absolute slots) (hslots : ∀ slot ∈ slots, slot.Encodable extension) :
    ∀ {index : Nat}, offsets.toList.drop index = units →
      Encodes extension (unitAt offsets) index (code extension slots widths) slots := by
  induction h with
  | nil => exact fun _ => .nil _
  | @cons unit slot slots units width widths _ hwidth hrest ih =>
    intro index hdrop
    obtain ⟨hslot, habsolute⟩ := List.forall_mem_cons.mp habsolute
    obtain ⟨hencodable, hslots⟩ := List.forall_mem_cons.mp hslots
    have hlater : offsets.toList.drop (index + 1) = units := by
      rw [← List.tail_drop, hdrop, List.tail_cons]
    have hat : unitAt offsets index = unit := by
      rw [unitAt, ← Array.getElem?_toList, ← List.head?_drop, hdrop]
      rfl
    have hnext : unitAt offsets (index + 1) = unit + width.extensions + 1 := by
      rw [unitAt, ← Array.getElem?_toList, ← List.head?_drop, hlater]
      cases hrest <;> rfl
    rw [slotWidth_unitOf hslot, Except.ok.injEq] at hwidth
    have hword : slot.argumentIn (unitAt offsets) < 0x100000000 := by
      rw [Slot.argumentIn]
      split
      · rename_i hnone
        exact hencodable.argument hnone
      · exact unitAt_lt hunits _
    refine .cons (Decoded.Group.read_instruction hencodable.opcode ?_ ?_ _ _) rfl ?_ ?_
      (ih habsolute hslots hlater)
    · rw [← hwidth]
      exact extensionCount_le _
    · rw [← hwidth]
      exact lt_of_extensionCount_le hword (Nat.le_refl _)
    · rw [← hwidth]
      rfl
    · rw [hnext, hat]
      rfl

/-- Without relative branches a layout is consistent and no consistent layout has a slot in front
of where it stands.  Its code encodes the slots if they can be encoded, and no encoding of them
has fewer units. -/
theorem ofSlots_least {slots : List Slot} (habsolute : Flat.Absolute slots) {budget : Nat}
    {layout : Layout} (h : ofSlots slots budget = .ok layout) :
    (layout.offsets.size = slots.length + 1 ∧ Consistent slots (unitAt layout.offsets)) ∧
    (∀ units, Consistent slots units → ∀ index, unitAt layout.offsets index ≤ units index) ∧
    ∀ extension,
      ((∀ slot ∈ slots, slot.Encodable extension) →
        IsEncoding extension slots (Layout.code extension slots layout.widths)) ∧
      ∀ code, IsEncoding extension slots code →
        (Layout.code extension slots layout.widths).length ≤ code.length := by
  have hplaced := placed_of_ofSlots h
  have hconsistent := consistent_of_ofSlots habsolute h
  have hleast : ∀ units, Consistent slots units →
      ∀ index, unitAt layout.offsets index ≤ units index :=
    fun units hunits => ofSlots_le habsolute hunits h
  have hencodes : ∀ extension, (∀ slot ∈ slots, slot.Encodable extension) →
      Encodes extension (unitAt layout.offsets) 0 (Layout.code extension slots layout.widths)
        slots :=
    fun extension hslots => hplaced.encodes hplaced.lt habsolute hslots rfl
  refine ⟨⟨hplaced.length_eq.2, hconsistent⟩, hleast, fun extension => ⟨fun hslots =>
    ⟨_, hconsistent.start, hencodes extension hslots⟩, ?_⟩⟩
  rintro code ⟨units, hzero, hcode⟩
  have hlength := (hencodes extension hcode.encodable).length_code
  have hlength' := hcode.length_code
  have hstop := hleast units (hcode.consistent hzero) slots.length
  rw [hconsistent.start, Nat.zero_add slots.length] at hlength
  rw [hzero, Nat.zero_add slots.length] at hlength'
  omega

/-- Without an extension unit the branch is aimed at unit 255, so that it needs none. -/
theorem pass_longBranch :
    Pass (longBranch 255) (unitAt (Array.range 257)) (unitAt (Array.range 257)) := by
  refine ⟨by rw [unitAt_range, if_pos (by decide)], fun index slot hslot => ?_,
    fun index hindex => ?_⟩
  · have hlt : index < 256 := by
      rw [← length_longBranch 255]
      exact (List.getElem?_eq_some_iff.mp hslot).1
    have hargument : slot.argumentIn (unitAt (Array.range 257)) < 0x100 := by
      rcases List.mem_cons.mp (List.mem_of_getElem? hslot) with rfl | hslot
      · rw [Slot.argumentIn]
        simp only
        rw [unitAt_range, if_pos (by omega)]
        omega
      · rw [List.eq_of_mem_replicate hslot]
        exact Nat.zero_lt_succ _
    rw [seenFrom_self, extensionCount, if_pos hargument, unitAt_range, unitAt_range,
      if_pos (by omega), if_pos (by omega)]
  · rw [length_longBranch] at hindex
    rw [unitAt_range, if_neg (by omega)]

/-- With an extension unit it is aimed at unit 256, so that it needs the extension unit. -/
theorem consistent_longBranch :
    Consistent (longBranch 255) fun index => if index = 0 then 0 else index + 1 := by
  refine ⟨rfl, fun index slot hslot => ?_⟩
  cases index with
  | zero =>
    rw [longBranch, List.getElem?_cons_zero, Option.some.injEq] at hslot
    rw [← hslot]
    decide
  | succ index =>
    rw [longBranch, List.getElem?_cons_succ] at hslot
    rw [List.eq_of_mem_replicate (List.mem_of_getElem? hslot)]
    exact Nat.le_refl _

/-- The layout of that branch does without the extension unit, and its code is the shortest. -/
theorem longBranch_least : Flat.Absolute (longBranch 255) ∧
    Consistent (longBranch 255) (fun index => if index = 0 then 0 else index + 1) ∧
    ∃ layout, ofSlots (longBranch 255) 32 = .ok layout ∧ layout.offsets = Array.range 257 ∧
      (∀ units, Consistent (longBranch 255) units →
        ∀ index, unitAt layout.offsets index ≤ units index) ∧
      ∀ code, IsEncoding 144 (longBranch 255) code →
        (Layout.code 144 (longBranch 255) layout.widths).length ≤ code.length := by
  have habsolute := absolute_longBranch 255
  have hshort : (longBranch 255).length < 0x40000000 := by
    rw [length_longBranch]
    decide
  obtain ⟨widths, h⟩ := ofSlots_of_range habsolute hshort
    (by rw [length_longBranch]; exact pass_longBranch) 31
  simp only [length_longBranch, Nat.reduceAdd] at h
  obtain ⟨-, hleast, hcode⟩ := ofSlots_least habsolute h
  exact ⟨habsolute, consistent_longBranch, _, h, by simp only, hleast, (hcode 144).2⟩

end Layout
end StackCode
