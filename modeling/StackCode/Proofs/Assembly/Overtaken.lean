import StackCode.Proofs.Assembly.Faithful

/-!
Branches that are refused.  A pass places a slot with the unit that its target had in the pass
before, so that a forward branch is refused once extension units in front of it move it to where
its target stood.  Nothing else makes a layout refuse forward branches.
-/

namespace StackCode

open Encoding Outcome

/-- The error is about a branch that has no argument, or about an offset of more than 32 bits. -/
def Error.isInvalidBranch : Error → Bool
  | .backwardBranch _ _ => true
  | .distantBranch _ _ => true
  | .addressSpace _ => true
  | _ => false

/-- Every relative branch is aimed at a slot behind it. -/
def Flat.Forward (slots : List Slot) : Prop :=
  ∀ (index : Nat) (slot : Slot) (target : Nat), slots[index]? = some slot →
    slot.kind = .relativeJump → slot.target = some target → index < target

/-- Every branch is aimed at one of the slots. -/
def Flat.Closed (slots : List Slot) : Prop :=
  ∀ slot ∈ slots, ∀ target, slot.target = some target → target < slots.length

namespace Layout

/-! ### Widths -/

theorem exists_relativeFrom {unit target : Nat} :
    ∀ {fuel extensions : Nat}, maxExtensions < extensions + fuel → unit + extensions < target →
      extensions ≤ maxExtensions →
      ∃ width, relativeFrom unit target fuel extensions = .ok width := by
  intro fuel
  induction fuel with
  | zero =>
    intro extensions hfuel _ hle
    omega
  | succ fuel ih =>
    intro extensions hfuel htarget hle
    rw [relativeFrom, if_neg (by omega)]
    split
    · exact ⟨_, rfl⟩
    · rename_i hcount
      -- An argument that needs extension units is a long way off.
      have hfar : 0x100 ≤ target - (unit + extensions + 1) := by
        by_contra hnear
        rw [extensionCount, if_pos (by omega)] at hcount
        exact hcount (Nat.zero_le _)
      have hmore : extensions < maxExtensions :=
        Nat.lt_of_lt_of_le (Nat.lt_of_not_le hcount) (extensionCount_le _)
      exact ih (by omega) (by omega) hmore

/-- A relative branch has an argument exactly if its target stands behind it. -/
theorem exists_relative {unit target : Nat} (h : unit < target) :
    ∃ width, relative unit target = .ok width :=
  exists_relativeFrom (by omega) h (Nat.zero_le _)

theorem relative_of_le {unit target : Nat} (h : target ≤ unit) :
    relative unit target = .error (.backwardBranch unit target) := by
  rw [relative, relativeFrom, if_pos (by omega)]

/-- Only branches that do not lead on are refused.  A branch is never too long. -/
theorem relative_eq_error_iff {unit target : Nat} {error : Error} :
    relative unit target = .error error ↔
      target ≤ unit ∧ error = .backwardBranch unit target := by
  constructor
  · intro h
    have hback : target ≤ unit := by
      by_contra hahead
      obtain ⟨width, hwidth⟩ := exists_relative (Nat.lt_of_not_le hahead)
      rw [hwidth] at h
      cases h
    rw [relative_of_le hback, Except.error.injEq] at h
    exact ⟨hback, h.symm⟩
  · rintro ⟨hback, rfl⟩
    exact relative_of_le hback

theorem slotWidth_extensions_le {slot : Slot} {unit target : Nat} {width : Width}
    (h : slotWidth slot unit target = .ok width) : width.extensions ≤ maxExtensions := by
  rw [slotWidth] at h
  split at h
  · cases h
    exact extensionCount_le _
  · exact (relative_eq_ok h).2.2
  · cases h
    exact extensionCount_le _

/-- Only relative branches are refused, and only those whose target does not stand behind them. -/
theorem slotWidth_eq_error {slot : Slot} {unit target : Nat} {error : Error}
    (h : slotWidth slot unit target = .error error) :
    slot.kind = .relativeJump ∧ slot.target ≠ none ∧ target ≤ unit ∧
      error = .backwardBranch unit target := by
  rw [slotWidth] at h
  split at h
  · cases h
  · rename_i index hindex hkind
    obtain ⟨hle, rfl⟩ := relative_eq_error_iff.mp h
    exact ⟨hkind, by rw [hindex]; exact Option.some_ne_none index, hle, rfl⟩
  · cases h

/-! ### Passes -/

/-- A pass from `previous` comes to a relative branch at a unit that is not in front of the unit
where its target stood. -/
inductive Overtakes (previous : Array Nat) (slots : List Slot) : Prop where
  | intro {before after : List Slot} {slot : Slot} {target : Nat} {placed : Array Nat}
    {unit stale : Nat} {widths : List Width} (hslots : slots = before ++ slot :: after)
    (hkind : slot.kind = .relativeJump) (htarget : slot.target = some target)
    (hplaced : place previous 0 #[] [] before = .ok (placed.push unit, widths))
    (hstale : previous[target]? = some stale) (hle : stale ≤ unit) : Overtakes previous slots

/-- That many passes, none of which settled, lead from some offsets to others. -/
inductive Unsettled (slots : List Slot) : (passes : Nat) → Array Nat → Array Nat → Prop
  | start (offsets : Array Nat) : Unsettled slots 0 offsets offsets
  | pass {passes : Nat} {previous offsets later : Array Nat} {widths : List Width}
    (hplace : place previous 0 #[] [] slots = .ok (offsets, widths)) (hmoved : offsets ≠ previous)
    (hrest : Unsettled slots passes offsets later) : Unsettled slots (passes + 1) previous later

/-- A pass leaves one offset for each slot and one for the end.  Each slot takes one unit at least
and four at most. -/
theorem push_of_place {previous : Array Nat} (slots : List Slot) :
    ∀ {unit : Nat} {placed offsets : Array Nat} {widths result : List Width},
      place previous unit placed widths slots = .ok (offsets, result) →
      ∃ (placed' : Array Nat) (stop : Nat), offsets = placed'.push stop ∧
        placed'.size = placed.size + slots.length ∧
        unit + slots.length ≤ stop ∧ stop ≤ unit + 4 * slots.length := by
  induction slots with
  | nil =>
    intro unit placed offsets widths result h
    obtain ⟨-, rfl, -⟩ := place_nil.mp h
    exact ⟨placed, unit, rfl, rfl, Nat.le_refl _, Nat.le_refl _⟩
  | cons slot rest ih =>
    intro unit placed offsets widths result h
    obtain ⟨-, width, hwidth, h⟩ := place_cons.mp h
    obtain ⟨placed', stop, rfl, hsize, hlow, hhigh⟩ := ih h
    have hextensions : width.extensions ≤ 3 := slotWidth_extensions_le hwidth
    rw [Array.size_push] at hsize
    exact ⟨placed', stop, rfl, by rw [List.length_cons]; omega, by rw [List.length_cons]; omega,
      by rw [List.length_cons]; omega⟩

/-- The bounds of `push_of_place` for a pass that is known by its outcome. -/
theorem bounds_of_place {previous placed : Array Nat} {slots : List Slot} {stop : Nat}
    {widths : List Width} (h : place previous 0 #[] [] slots = .ok (placed.push stop, widths)) :
    placed.size = slots.length ∧ slots.length ≤ stop ∧ stop ≤ 4 * slots.length := by
  obtain ⟨placed', stop', hpush, hsize, hlow, hhigh⟩ := push_of_place slots h
  obtain ⟨rfl, rfl⟩ := Array.push_eq_push.mp hpush
  simp only [Array.size_empty] at hsize
  omega

/-- A pass goes on behind the slots that it has placed. -/
theorem place_append {previous : Array Nat} (before rest : List Slot) :
    ∀ {unit unit' : Nat} {placed placed' : Array Nat} {widths widths' : List Width},
      place previous unit placed widths before = .ok (placed'.push unit', widths') →
      place previous unit placed widths (before ++ rest) =
        place previous unit' placed' widths'.reverse rest := by
  induction before with
  | nil =>
    intro unit unit' placed placed' widths widths' h
    obtain ⟨-, hpush, rfl⟩ := place_nil.mp h
    obtain ⟨rfl, rfl⟩ := Array.push_eq_push.mp hpush
    rw [List.nil_append, List.reverse_reverse]
  | cons slot before ih =>
    intro unit unit' placed placed' widths widths' h
    obtain ⟨hunit, width, hwidth, h⟩ := place_cons.mp h
    rw [← ih h, List.cons_append, place, checkUnit, if_pos hunit]
    simp only
    rw [hwidth]

theorem targetUnit_of_size_le {previous placed : Array Nat} {slot : Slot} {target stale : Nat}
    (htarget : slot.target = some target) (hsize : placed.size ≤ target)
    (hstale : previous[target]? = some stale) : targetUnit previous placed slot = stale := by
  rw [targetUnit, htarget]
  simp only
  rw [Array.getElem?_eq_none hsize, Option.none_or, hstale, Option.getD_some]

section Refused

variable {previous : Array Nat} {slots : List Slot}

/-- A pass that comes to such a branch refuses it. -/
theorem Overtakes.place_eq_error (h : Overtakes previous slots) (hforward : Flat.Forward slots)
    (hshort : slots.length < 0x40000000) :
    ∃ unit target, place previous 0 #[] [] slots = .error (.backwardBranch unit target) := by
  obtain ⟨rfl, hkind, htarget, hplaced, hstale, hle⟩ := h
  rename_i before after slot target placed unit stale widths
  obtain ⟨hsize, -, hunit⟩ := bounds_of_place hplaced
  have hahead : before.length < target :=
    hforward before.length slot target (by simp) hkind htarget
  have hplacedSize : (placed.push unit).size ≤ target := by
    rw [Array.size_push]
    omega
  have hat := targetUnit_of_size_le htarget hplacedSize hstale
  rw [List.length_append] at hshort
  refine ⟨unit, stale, ?_⟩
  rw [place_append _ _ hplaced, place, checkUnit, if_pos (by omega)]
  simp only
  rw [hat, slotWidth, htarget, hkind]
  simp only
  rw [relative_of_le hle]

/-- Slots that a pass refuses behind those it has placed. -/
theorem overtakes_of_place (hforward : Flat.Forward slots) (hclosed : Flat.Closed slots)
    (hshort : slots.length < 0x40000000) (hprevious : previous.size = slots.length + 1)
    (rest : List Slot) :
    ∀ {before : List Slot} {placed : Array Nat} {unit : Nat} {widths : List Width} {error : Error},
      slots = before ++ rest →
      place previous 0 #[] [] before = .ok (placed.push unit, widths) →
      place previous unit placed widths.reverse rest = .error error →
      error.isInvalidBranch = true ∧ Overtakes previous slots := by
  induction rest with
  | nil =>
    intro before placed unit widths error hslots hbefore h
    obtain ⟨-, -, hunit⟩ := bounds_of_place hbefore
    rw [hslots, List.append_nil] at hshort
    rw [place, checkUnit, if_pos (by omega)] at h
    cases h
  | cons slot rest ih =>
    intro before placed unit widths error hslots hbefore h
    obtain ⟨hsize, -, hunit⟩ := bounds_of_place hbefore
    have hlength : slots.length = before.length + rest.length + 1 := by
      rw [hslots, List.length_append, List.length_cons, Nat.add_assoc]
    have hat : slots[before.length]? = some slot := by rw [hslots]; simp
    rw [place, checkUnit, if_pos (by omega)] at h
    simp only at h
    cases hwidth : slotWidth slot unit (targetUnit previous (placed.push unit) slot) with
    | ok width =>
      rw [hwidth] at h
      have hextensions : width.extensions ≤ 3 := slotWidth_extensions_le hwidth
      -- The slot is one more that was placed.
      have hmore : place previous 0 #[] [] (before ++ [slot]) =
          .ok ((placed.push unit).push (unit + width.extensions + 1),
            (width :: widths.reverse).reverse) := by
        rw [place_append _ _ hbefore]
        exact place_cons.mpr ⟨by omega, width, hwidth, place_nil.mpr ⟨by omega, rfl, rfl⟩⟩
      refine ih (by rw [hslots, List.append_assoc, List.singleton_append]) hmore ?_
      rw [List.reverse_reverse]
      exact h
    | error found =>
      rw [hwidth] at h
      cases h
      obtain ⟨hkind, hsome, hle, rfl⟩ := slotWidth_eq_error hwidth
      obtain ⟨target, htarget⟩ := Option.ne_none_iff_exists'.mp hsome
      have hahead := hforward before.length slot target hat hkind htarget
      have hinside := hclosed slot (List.mem_of_getElem? hat) target htarget
      have hstale : previous[target]? = some previous[target] :=
        Array.getElem?_eq_getElem (by omega)
      rw [targetUnit_of_size_le htarget (by rw [Array.size_push]; omega) hstale] at hle
      exact ⟨rfl, .intro hslots hkind htarget hbefore hstale hle⟩

/-- Behind a pass that goes through, a later one is refused only if something was moved, and then it
is one of those that start from the new offsets. -/
theorem exists_overtakes_iff {offsets : Array Nat} {widths : List Width}
    (hplace : place previous 0 #[] [] slots = .ok (offsets, widths))
    (hgoes : ¬Overtakes previous slots) (budget : Nat) :
    (∃ count < budget + 1, ∃ later, Unsettled slots count previous later ∧
        Overtakes later slots) ↔
      offsets ≠ previous ∧ ∃ count < budget, ∃ later, Unsettled slots count offsets later ∧
        Overtakes later slots := by
  constructor
  · rintro ⟨count, hcount, later, hunsettled, hovertakes⟩
    cases hunsettled with
    | start => exact absurd hovertakes hgoes
    | pass hpass hmoved hrest =>
      rw [hplace] at hpass
      cases hpass
      exact ⟨hmoved, _, by omega, later, hrest, hovertakes⟩
  · rintro ⟨hmoved, count, hcount, later, hunsettled, hovertakes⟩
    exact ⟨count + 1, by omega, later, .pass hplace hmoved hunsettled, hovertakes⟩

/-- Settling is refused in the first pass that comes to a relative branch behind the old place of
its target, if there is such a pass. -/
theorem settle_eq_error (hforward : Flat.Forward slots) (hclosed : Flat.Closed slots)
    (hshort : slots.length < 0x40000000) :
    ∀ (budget passes : Nat) {previous : Array Nat}, previous.size = slots.length + 1 →
      ((∃ error, settle slots budget passes previous = .error error ∧
          error.isInvalidBranch = true) ↔
        ∃ count < budget, ∃ later, Unsettled slots count previous later ∧
          Overtakes later slots) := by
  intro budget
  induction budget with
  | zero =>
    intro passes previous _
    constructor
    · rintro ⟨error, h, hinvalid⟩
      cases h
      cases hinvalid
    · rintro ⟨count, hcount, -⟩
      exact absurd hcount (Nat.not_lt_zero count)
  | succ budget ih =>
    intro passes previous hprevious
    rw [settle]
    cases hplace : place previous 0 #[] [] slots with
    | error error =>
      obtain ⟨hinvalid, hovertakes⟩ := overtakes_of_place hforward hclosed hshort hprevious slots
        (List.nil_append slots).symm (place_nil.mpr ⟨by decide, rfl, rfl⟩) hplace
      exact ⟨fun _ => ⟨0, Nat.succ_pos budget, previous, .start previous, hovertakes⟩,
        fun _ => ⟨error, rfl, hinvalid⟩⟩
    | ok result =>
      obtain ⟨offsets, widths⟩ := result
      have hgoes : ¬Overtakes previous slots := by
        intro h
        obtain ⟨unit, target, herror⟩ := h.place_eq_error hforward hshort
        rw [hplace] at herror
        cases herror
      rw [exists_overtakes_iff hplace hgoes]
      simp only
      split
      · rename_i hsettled
        refine iff_of_false ?_ fun h => h.1 hsettled
        rintro ⟨error, h, -⟩
        cases h
      · rename_i hmoved
        obtain ⟨placed, stop, rfl, hsize, -⟩ := push_of_place slots hplace
        rw [ih _ (by rw [Array.size_push, hsize, Array.size_empty, Nat.zero_add])]
        exact (and_iff_right hmoved).symm

theorem ofSlots_eq_error (hforward : Flat.Forward slots) (hclosed : Flat.Closed slots)
    (hshort : slots.length < 0x40000000) (budget : Nat) :
    (∃ error, ofSlots slots budget = .error error ∧ error.isInvalidBranch = true) ↔
      ∃ count < budget, ∃ previous,
        Unsettled slots count (Array.range (slots.length + 1)) previous ∧
          Overtakes previous slots := by
  rw [ofSlots, if_pos (by omega)]
  exact settle_eq_error hforward hclosed hshort budget 0 Array.size_range

end Refused

/-! ### Room for extension units -/

/-- The most extension units that a slot takes. -/
def reserve (slot : Slot) : Nat :=
  if slot.target.isSome then maxExtensions else extensionCount slot.argument

theorem slotWidth_extensions_le_reserve {slot : Slot} {unit target : Nat} {width : Width}
    (h : slotWidth slot unit target = .ok width) : width.extensions ≤ reserve slot := by
  rw [reserve]
  split
  · exact slotWidth_extensions_le h
  · rename_i hnone
    rw [slotWidth, Option.not_isSome_iff_eq_none.mp hnone] at h
    cases h
    exact Nat.le_refl _

/-- A slot stands no further behind than the extension units in front of it can move it. -/
theorem stop_le_reserve {previous : Array Nat} (slots : List Slot) :
    ∀ {unit stop : Nat} {placed placed' : Array Nat} {widths result : List Width},
      place previous unit placed widths slots = .ok (placed'.push stop, result) →
      stop ≤ unit + slots.length + (slots.map reserve).sum := by
  induction slots with
  | nil =>
    intro unit stop placed placed' widths result h
    obtain ⟨-, hpush, -⟩ := place_nil.mp h
    obtain ⟨rfl, -⟩ := Array.push_eq_push.mp hpush
    exact Nat.le_refl _
  | cons slot rest ih =>
    intro unit stop placed placed' widths result h
    obtain ⟨-, width, hwidth, h⟩ := place_cons.mp h
    have hreserve := slotWidth_extensions_le_reserve hwidth
    have hstop := ih h
    rw [List.length_cons, List.map_cons, List.sum_cons]
    omega

/-- No slot stands in front of its index. -/
def Spread (offsets : Array Nat) : Prop :=
  ∀ (index unit : Nat), offsets[index]? = some unit → index ≤ unit

theorem Spread.push {offsets : Array Nat} {unit : Nat} (h : Spread offsets)
    (hunit : offsets.size ≤ unit) : Spread (offsets.push unit) := by
  intro index other hother
  rw [Array.getElem?_push] at hother
  split at hother
  · cases hother
    omega
  · exact h index other hother

theorem spread_range (count : Nat) : Spread (Array.range count) := by
  intro index unit hunit
  obtain ⟨hlt, rfl⟩ := Array.getElem?_eq_some_iff.mp hunit
  rw [Array.getElem_range]

theorem spread_of_place {previous : Array Nat} (slots : List Slot) :
    ∀ {unit : Nat} {placed offsets : Array Nat} {widths result : List Width},
      place previous unit placed widths slots = .ok (offsets, result) → Spread placed →
      placed.size ≤ unit → Spread offsets := by
  induction slots with
  | nil =>
    intro unit placed offsets widths result h hplaced hunit
    obtain ⟨-, rfl, -⟩ := place_nil.mp h
    exact hplaced.push hunit
  | cons slot rest ih =>
    intro unit placed offsets widths result h hplaced hunit
    obtain ⟨-, width, -, h⟩ := place_cons.mp h
    exact ih h (hplaced.push hunit) (by rw [Array.size_push]; omega)

theorem Unsettled.spread {slots : List Slot} {passes : Nat} {previous later : Array Nat}
    (h : Unsettled slots passes previous later) (hprevious : Spread previous) : Spread later := by
  induction h with
  | start => exact hprevious
  | pass hplace _ _ ih =>
    exact ih (spread_of_place slots hplace (fun index unit h => by simp at h) (Nat.le_refl _))

/-- Every relative branch has more slots in front of its target than it and the extension units in
front of it can take. -/
def Roomy (slots : List Slot) : Prop :=
  ∀ (index : Nat) (slot : Slot) (target : Nat), slots[index]? = some slot →
    slot.kind = .relativeJump → slot.target = some target →
    index + ((slots.take index).map reserve).sum < target

theorem Roomy.forward {slots : List Slot} (h : Roomy slots) : Flat.Forward slots := by
  intro index slot target hslot hkind htarget
  have := h index slot target hslot hkind htarget
  omega

theorem Roomy.not_overtakes {slots : List Slot} (h : Roomy slots) {previous : Array Nat}
    (hprevious : Spread previous) : ¬Overtakes previous slots := by
  rintro ⟨rfl, hkind, htarget, hplaced, hstale, hle⟩
  rename_i before after slot target placed unit stale widths
  have hroom := h before.length slot target (by simp) hkind htarget
  rw [List.take_left] at hroom
  have hunit := stop_le_reserve before hplaced
  have htargetUnit := hprevious target stale hstale
  omega

end Layout

/-! ### Graphs -/

/-- Every branch of a flattened graph lands on one of its instructions. -/
theorem Graph.closed_of_flatten {graph : Graph} {verify : Bool} {flat : Flat}
    (h : graph.flatten verify = .ok flat) : Flat.Closed flat.slots := by
  obtain ⟨blocks, hlinear, hflat⟩ := bind_eq_ok.mp h
  obtain ⟨-, hslots, -⟩ := (Flat.ofBlocks_eq_ok (Graph.linearize_perm hlinear).2).mp hflat
  intro slot hslot target htarget
  obtain ⟨instruction, -, hresolved⟩ := exists_of_mem_right hslots hslot
  rw [← hslots.length_eq, Flat.length_flatMap_all]
  exact hresolved.fits.target_lt target htarget

/-- Only unknown opcodes have no stack effect. -/
theorem StackHeight.isInvalidBranch_of_peak {isa : InstructionSet} {slots : List Slot}
    {error : Error} (h : peak isa slots = .error error) : error.isInvalidBranch = false := by
  have hrun : ∀ fuel visit, Visit.run isa slots.toArray fuel visit = .error error →
      error.isInvalidBranch = false := by
    intro fuel
    induction fuel with
    | zero =>
      intro visit h
      cases h
    | succ fuel ih =>
      intro visit h
      rw [Visit.run] at h
      split at h
      · cases h
      · split at h
        · exact ih _ h
        · split at h
          · rename_i heffect
            cases h
            rw [Instruction.stackEffect, InstructionSet.stackEffect, InstructionSet.get] at heffect
            split at heffect
            · cases heffect
            · cases heffect
              rfl
          · exact ih _ h
  rcases bind_eq_error.mp h with hvisit | ⟨visit, -, h⟩
  · exact hrun _ _ hvisit
  · cases h

/-- A flattened graph is refused because of its branches exactly if its layout is. -/
theorem Graph.assemble_eq_error_iff {graph : Graph} {settings : AssemblySettings} {flat : Flat}
    (hflat : graph.flatten settings.verify = .ok flat) {error : Error}
    (hinvalid : error.isInvalidBranch = true) :
    graph.assemble settings = .error error ↔
      Layout.ofSlots flat.slots settings.passes = .error error := by
  rw [assemble, bind_eq_error, hflat]
  constructor
  · rintro (h | ⟨_, hsame, h⟩)
    · cases h
    · cases hsame
      rcases bind_eq_error.mp h with hlayout | ⟨layout, -, h⟩
      · exact hlayout
      · simp only at h
        split at h
        · rcases bind_eq_error.mp h with hpeak | ⟨peak, -, h⟩
          · rw [StackHeight.isInvalidBranch_of_peak hpeak] at hinvalid
            cases hinvalid
          · cases h
        · cases h
  · exact fun h => .inr ⟨flat, rfl, bind_eq_error.mpr (.inl h)⟩

/-- A graph with forward branches only is refused for a branch exactly if some pass within the
budget moves a relative branch to the old place of its target, or behind it. -/
theorem Graph.assemble_invalidBranch_iff {graph : Graph} {settings : AssemblySettings}
    {flat : Flat} (hflat : graph.flatten settings.verify = .ok flat)
    (hshort : flat.slots.length < 0x40000000) (hforward : Flat.Forward flat.slots) :
    (∃ error, graph.assemble settings = .error error ∧ error.isInvalidBranch = true) ↔
      ∃ count < settings.passes, ∃ previous,
        Layout.Unsettled flat.slots count (Array.range (flat.slots.length + 1)) previous ∧
          Layout.Overtakes previous flat.slots := by
  rw [← Layout.ofSlots_eq_error hforward (closed_of_flatten hflat) hshort]
  exact exists_congr fun error => and_congr_left fun hinvalid => assemble_eq_error_iff hflat hinvalid

/-- Where there is room for all extension units in front of a branch, it is never refused. -/
theorem Graph.assemble_of_roomy {graph : Graph} {settings : AssemblySettings} {flat : Flat}
    (hflat : graph.flatten settings.verify = .ok flat) (hshort : flat.slots.length < 0x40000000)
    (hroomy : Layout.Roomy flat.slots) {error : Error}
    (h : graph.assemble settings = .error error) : error.isInvalidBranch = false := by
  by_contra hinvalid
  rw [Bool.not_eq_false] at hinvalid
  obtain ⟨count, -, previous, hunsettled, hovertakes⟩ :=
    (Layout.ofSlots_eq_error hroomy.forward (closed_of_flatten hflat) hshort settings.passes).mp
      ⟨error, (assemble_eq_error_iff hflat hinvalid).mp h, hinvalid⟩
  exact hroomy.not_overtakes (hunsettled.spread (Layout.spread_range _)) hovertakes

/-- A program for the small machine that branches forward to the instruction behind the branch.  The
operand in front of the branch takes an extension unit. -/
def overtaken : Graph where
  metadata := default
  isa := .small
  entry := 1
  blocks :=
    [(1, .basic
      { id := 1
        instructions := [{ opcode := 102, operand := .immediate 300 }]
        jump := some { opcode := 110, operand := .label { block := 2, index := 0 } }
        fallthrough := none
        line := none }),
     (2, .basic
      { id := 2
        instructions := [.simple 83]
        jump := none
        fallthrough := none
        line := none })]

/-- The slots of `overtaken`. -/
def overtakenSlots : List Slot :=
  [{ instruction := { opcode := 102, operand := .immediate 300 }
     kind := .immediate, argument := 300, target := none },
   { instruction := { opcode := 110, operand := .label { block := 2, index := 0 } }
     kind := .relativeJump, argument := 0, target := some 2 },
   { instruction := .simple 83, kind := .none, argument := 0, target := none }]

theorem overtaken_flatten :
    overtaken.flatten true = .ok { slots := overtakenSlots, lines := [] } := by
  have hlinear : overtaken.linearize = .ok overtaken.leaves :=
    Graph.linearize_chain rfl (by decide) ⟨.inl rfl, rfl⟩ rfl
  rw [Graph.flatten, hlinear]
  rfl

theorem overtaken_forward : Flat.Forward overtakenSlots := by
  intro index slot target hslot hkind htarget
  match index, hslot with
  | 0, hslot => cases hslot; cases hkind
  | 1, hslot => cases hslot; cases htarget; decide
  | 2, hslot => cases hslot; cases hkind

theorem overtaken_assemble : overtaken.assemble .default = .error (.backwardBranch 2 2) := by
  rw [Graph.assemble]
  show (overtaken.flatten true >>= _) = _
  rw [overtaken_flatten]
  rfl

/-- The branch of `overtaken` is a forward one, and is refused as a backward one. -/
theorem overtaken_refused : ∃ flat, overtaken.flatten AssemblySettings.default.verify = .ok flat ∧
    flat.slots.length < 0x40000000 ∧ Flat.Forward flat.slots ∧
    overtaken.assemble .default = .error (.backwardBranch 2 2) :=
  ⟨_, overtaken_flatten, by decide, overtaken_forward, overtaken_assemble⟩

/-- It is refused as its first passes move the branch of `overtaken` to where its target stood. -/
theorem overtaken_overtakes : ∃ count < 32, ∃ previous,
    Layout.Unsettled overtakenSlots count (Array.range (overtakenSlots.length + 1)) previous ∧
      Layout.Overtakes previous overtakenSlots :=
  (@Graph.assemble_invalidBranch_iff overtaken .default { slots := overtakenSlots, lines := [] }
    overtaken_flatten (by decide) overtaken_forward).mp ⟨_, overtaken_assemble, rfl⟩

end StackCode
