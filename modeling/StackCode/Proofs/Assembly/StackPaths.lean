import Mathlib.Logic.Relation
import Mathlib.Order.Bounds.Basic
import StackCode.Proofs.Assembly.Faithful

/-!
The measured stack height, against the paths that execution can take.

Where every way to come to a slot leaves a stack of the same height there, the height that a slot
is first reached with is the height of all paths to it.  Visiting each slot once then shows the
greatest height of all paths, however often they go round in loops.
-/

namespace StackCode

open Outcome

namespace StackHeight

section Paths

variable (isa : InstructionSet) (slots : List Slot)

/-! ## Paths -/

/-- Execution can go on behind one slot with another one. -/
inductive Follows : Nat → Nat → Prop where
  | next {index : Nat} {slot : Slot} (hslot : slots[index]? = some slot)
    (hon : isa.isTerminal slot.instruction.opcode = false) (hinside : index + 1 < slots.length) :
    Follows index (index + 1)
  | branch {index target : Nat} {slot : Slot} (hslot : slots[index]? = some slot)
    (htarget : slot.target = some target) (hinside : target < slots.length) :
    Follows index target

/-- The instruction at `index` changes the height of the stack by `effect`. -/
def Adds (index : Nat) (effect : Int) : Prop :=
  ∃ slot, slots[index]? = some slot ∧ slot.instruction.stackEffect isa = .ok effect

/-- Some path from the first slot comes to a slot, with a stack of the given height. -/
inductive Path : Nat → Int → Prop where
  | start (hsome : 0 < slots.length) : Path 0 0
  | step {index next : Nat} {height effect : Int} (path : Path index height)
    (hadds : Adds isa slots index effect) (hfollows : Follows isa slots index next) :
    Path next (height + effect)

/-- The heights along all paths: that of the empty stack, and the height behind each slot. -/
def pathHeights : Set Int :=
  {height | height = 0 ∨ ∃ index before effect, Path isa slots index before ∧
    Adds isa slots index effect ∧ height = before + effect}

/-- Some path comes to the slot. -/
def Reachable (index : Nat) : Prop :=
  0 < slots.length ∧ Relation.ReflTransGen (Follows isa slots) 0 index

/-- Heights for the slots, such that all ways to come to a slot agree, and the stack never runs
below its bottom. -/
structure Consistent (heights : Nat → Int) : Prop where
  first : heights 0 = 0
  nonneg : ∀ index effect, Reachable isa slots index → Adds isa slots index effect →
    0 ≤ heights index + effect
  along : ∀ index next effect, Reachable isa slots index → Adds isa slots index effect →
    Follows isa slots index next → heights next = heights index + effect

/-- The heights behind the slots that are reached, and that of the empty stack. -/
def slotHeights (heights : Nat → Int) : Set Int :=
  {height | height = 0 ∨ ∃ index effect, Reachable isa slots index ∧
    Adds isa slots index effect ∧ height = heights index + effect}

end Paths

variable {isa : InstructionSet} {slots : List Slot} {heights : Nat → Int}

theorem Adds.unique {index : Nat} {effect other : Int} (h : Adds isa slots index effect)
    (hother : Adds isa slots index other) : effect = other := by
  obtain ⟨slot, hslot, heffect⟩ := h
  obtain ⟨slot', hslot', heffect'⟩ := hother
  rw [hslot, Option.some.injEq] at hslot'
  rw [← hslot', heffect] at heffect'
  exact Except.ok.inj heffect'

/-- Execution goes on with the successors that lie inside. -/
theorem follows_iff {index next : Nat} {slot : Slot} (hslot : slots[index]? = some slot) :
    Follows isa slots index next ↔ next ∈ successors isa index slot ∧ next < slots.length := by
  constructor
  · intro h
    cases h with
    | next hother hon hinside =>
      rw [hslot, Option.some.injEq] at hother
      subst hother
      simp [successors, hon, hinside]
    | branch hother htarget hinside =>
      rw [hslot, Option.some.injEq] at hother
      subst hother
      simp [successors, htarget, hinside]
  · rintro ⟨hnext, hinside⟩
    rw [successors, List.mem_append] at hnext
    rcases hnext with hnext | hnext
    · split at hnext
      · cases hnext
      · rename_i hon
        cases List.mem_singleton.mp hnext
        exact .next hslot (Bool.eq_false_iff.mpr hon) hinside
    · exact .branch hslot (Option.mem_toList.mp hnext) hinside

theorem Reachable.step {index next : Nat} (h : Reachable isa slots index)
    (hfollows : Follows isa slots index next) : Reachable isa slots next :=
  ⟨h.1, h.2.tail hfollows⟩

/-- A path comes to a slot with the height that the slot has. -/
theorem Consistent.of_path (h : Consistent isa slots heights) {index : Nat} {height : Int}
    (path : Path isa slots index height) :
    Reachable isa slots index ∧ height = heights index := by
  induction path with
  | start hsome => exact ⟨⟨hsome, .refl⟩, h.first.symm⟩
  | step _ hadds hfollows ih =>
    obtain ⟨hreachable, rfl⟩ := ih
    exact ⟨hreachable.step hfollows, (h.along _ _ _ hreachable hadds hfollows).symm⟩

/-- Every slot changes the height by some effect. -/
def Measurable (isa : InstructionSet) (slots : List Slot) : Prop :=
  ∀ index < slots.length, ∃ effect, Adds isa slots index effect

theorem Reachable.lt {index : Nat} (h : Reachable isa slots index) : index < slots.length := by
  obtain ⟨hsome, hreach⟩ := h
  cases hreach with
  | refl => exact hsome
  | tail _ hfollows =>
    cases hfollows with
    | next _ _ hinside => exact hinside
    | branch _ _ hinside => exact hinside

theorem Consistent.path (h : Consistent isa slots heights) (hmeasurable : Measurable isa slots)
    {index : Nat} (hreachable : Reachable isa slots index) :
    Path isa slots index (heights index) := by
  obtain ⟨hsome, hreach⟩ := hreachable
  induction hreach with
  | refl =>
    rw [h.first]
    exact .start hsome
  | @tail index next hreach hfollows ih =>
    have hreachable : Reachable isa slots index := ⟨hsome, hreach⟩
    obtain ⟨effect, hadds⟩ := hmeasurable index hreachable.lt
    rw [h.along index next effect hreachable hadds hfollows]
    exact .step ih hadds hfollows

/-- The heights along the paths are those of the slots that are reached. -/
theorem Consistent.pathHeights_eq (h : Consistent isa slots heights)
    (hmeasurable : Measurable isa slots) :
    pathHeights isa slots = slotHeights isa slots heights := by
  ext height
  constructor
  · rintro (rfl | ⟨index, before, effect, path, hadds, rfl⟩)
    · exact .inl rfl
    · obtain ⟨hreachable, rfl⟩ := h.of_path path
      exact .inr ⟨index, effect, hreachable, hadds, rfl⟩
  · rintro (rfl | ⟨index, effect, hreachable, hadds, rfl⟩)
    · exact .inl rfl
    · exact .inr ⟨index, heights index, effect, h.path hmeasurable hreachable, hadds, rfl⟩

/-- The heights fit every slot, whether or not paths come to it. -/
def fit (isa : InstructionSet) (slots : List Slot) (heights : Nat → Int) : Bool :=
  slots.zipIdx.all fun (slot, index) =>
    match slot.instruction.stackEffect isa with
    | .error _ => true
    | .ok effect =>
      decide (0 ≤ heights index + effect) && (successors isa index slot).all fun next =>
        decide (slots.length ≤ next) || decide (heights next = heights index + effect)

theorem consistent_of_fit (hfirst : heights 0 = 0) (h : fit isa slots heights = true) :
    Consistent isa slots heights := by
  have hall : ∀ index effect, Adds isa slots index effect → 0 ≤ heights index + effect ∧
      ∀ next, Follows isa slots index next → heights next = heights index + effect := by
    rintro index effect ⟨slot, hslot, heffect⟩
    have hfit := List.all_eq_true.mp h (slot, index) (List.mem_zipIdx_iff_getElem?.mpr hslot)
    simp only [heffect, Bool.and_eq_true, decide_eq_true_eq, List.all_eq_true,
      Bool.or_eq_true] at hfit
    refine ⟨hfit.1, fun next hfollows => ?_⟩
    obtain ⟨hnext, hlt⟩ := (follows_iff hslot).mp hfollows
    exact (hfit.2 next hnext).resolve_left (Nat.not_le_of_lt hlt)
  exact ⟨hfirst, fun index effect _ hadds => (hall index effect hadds).1,
    fun index next effect _ hadds => (hall index effect hadds).2 next⟩

/-! ## Visits -/

namespace Visit

/-- The visit has come to the slot. -/
def Seen (visit : Visit) (index : Nat) : Prop :=
  ∃ height, visit.heights[index]? = some (some height)

/-- The slots that are not seen yet, and those that are still to be visited. -/
def work (visit : Visit) : Nat := visit.heights.count none + visit.pending.length

/-! ### Noting slots -/

section Reach

variable (height : Int) (visit : Visit) (index : Nat)

theorem size_reach : (visit.reach height index).heights.size = visit.heights.size := by
  rw [reach]
  split
  · exact Array.size_setIfInBounds
  · rfl

theorem peak_reach : (visit.reach height index).peak = visit.peak := by
  rw [reach]
  split <;> rfl

/-- A slot that is not seen yet gets the height, and the others keep theirs. -/
theorem getElem?_reach (other : Nat) :
    (visit.reach height index).heights[other]? =
      if visit.heights[index]? = some none ∧ other = index then some (some height)
      else visit.heights[other]? := by
  rw [reach]
  by_cases hfresh : visit.heights[index]? = some none
  · obtain ⟨hlt, -⟩ := Array.getElem?_eq_some_iff.mp hfresh
    rw [if_pos hfresh, Array.getElem?_setIfInBounds]
    by_cases hsame : index = other
    · rw [if_pos hsame, if_pos hlt, if_pos ⟨hfresh, hsame.symm⟩]
    · rw [if_neg hsame, if_neg fun h => hsame h.2.symm]
  · rw [if_neg hfresh, if_neg fun h => hfresh h.1]

theorem pending_reach :
    (visit.reach height index).pending =
      if visit.heights[index]? = some none then index :: visit.pending else visit.pending := by
  rw [reach]
  split <;> rfl

theorem work_reach : (visit.reach height index).work = visit.work := by
  rw [work, work, pending_reach, reach]
  by_cases hfresh : visit.heights[index]? = some none
  · obtain ⟨hlt, hnone⟩ := Array.getElem?_eq_some_iff.mp hfresh
    have hpos : 0 < visit.heights.count none :=
      Array.count_pos_iff.mpr (hnone ▸ Array.getElem_mem hlt)
    have hless : (visit.heights.setIfInBounds index (some height)).count none =
        visit.heights.count none - 1 := by
      rw [Array.setIfInBounds_def, dif_pos hlt, Array.count_set hlt, hnone]
      rfl
    rw [if_pos hfresh, if_pos hfresh, hless, List.length_cons]
    omega
  · rw [if_neg hfresh, if_neg hfresh]

end Reach

/-- Slots have been noted as reached with a stack of a given height.  Those that were not seen
before are pending now. -/
structure Noted (height : Int) (nexts : List Nat) (visit noted : Visit) : Prop where
  size : noted.heights.size = visit.heights.size
  peak : noted.peak = visit.peak
  work : noted.work = visit.work
  kept : ∀ (index : Nat) (found : Int), visit.heights[index]? = some (some found) →
    noted.heights[index]? = some (some found)
  fresh : ∀ (index : Nat) (found : Int), noted.heights[index]? = some (some found) →
    visit.heights[index]? = some (some found) ∨
      index ∈ nexts ∧ found = height ∧ index ∈ noted.pending
  pending : ∀ index, index ∈ visit.pending → index ∈ noted.pending
  pendingSeen : ∀ index, index ∈ noted.pending → index ∈ visit.pending ∨ noted.Seen index
  seen : ∀ index ∈ nexts, index < visit.heights.size → noted.Seen index

theorem Noted.keeps_seen {height : Int} {nexts : List Nat} {visit noted : Visit}
    (h : Noted height nexts visit noted) {index : Nat} (hseen : visit.Seen index) :
    noted.Seen index := by
  obtain ⟨found, hfound⟩ := hseen
  exact ⟨found, h.kept index found hfound⟩

/-- A slot that is seen and not pending any more was so before: those just seen are pending. -/
theorem Noted.settled {height : Int} {nexts : List Nat} {visit noted : Visit}
    (h : Noted height nexts visit noted) {index : Nat} (hseen : noted.Seen index)
    (hout : index ∉ noted.pending) : visit.Seen index ∧ index ∉ visit.pending := by
  refine ⟨?_, fun hmem => hout (h.pending index hmem)⟩
  obtain ⟨found, hfound⟩ := hseen
  rcases h.fresh index found hfound with hfound | ⟨-, -, hmem⟩
  · exact ⟨found, hfound⟩
  · exact absurd hmem hout

theorem Noted.refl (height : Int) (visit : Visit) : Noted height [] visit visit where
  size := rfl
  peak := rfl
  work := rfl
  kept _ _ h := h
  fresh _ _ h := .inl h
  pending _ h := h
  pendingSeen _ h := .inl h
  seen _ h := nomatch h

theorem noted_reach (height : Int) (visit : Visit) (index : Nat) :
    Noted height [index] visit (visit.reach height index) where
  size := size_reach height visit index
  peak := peak_reach height visit index
  work := work_reach height visit index
  kept other found hfound := by
    rw [getElem?_reach]
    split
    · rename_i h
      rw [h.2, h.1] at hfound
      cases hfound
    · exact hfound
  fresh other found hfound := by
    rw [getElem?_reach] at hfound
    rw [pending_reach]
    split at hfound
    · rename_i h
      cases hfound
      rw [if_pos h.1, h.2]
      exact .inr ⟨List.mem_cons_self, rfl, List.mem_cons_self⟩
    · exact .inl hfound
  pending other hother := by
    rw [pending_reach]
    split
    · exact List.mem_cons_of_mem _ hother
    · exact hother
  pendingSeen other hother := by
    rw [pending_reach] at hother
    split at hother
    · rename_i hfresh
      rcases List.mem_cons.mp hother with rfl | hother
      · exact .inr ⟨height, by rw [getElem?_reach, if_pos ⟨hfresh, rfl⟩]⟩
      · exact .inl hother
    · exact .inl hother
  seen other hother hlt := by
    rw [List.mem_singleton.mp hother] at hlt ⊢
    have hat : visit.heights[index]? = some visit.heights[index] := Array.getElem?_eq_getElem hlt
    cases hvalue : visit.heights[index] with
    | none => exact ⟨height, by rw [getElem?_reach, hat, hvalue, if_pos ⟨rfl, rfl⟩]⟩
    | some found => exact ⟨found, by rw [getElem?_reach, hat, hvalue, if_neg (by simp)]⟩

theorem Noted.trans {height : Int} {nexts others : List Nat} {visit noted last : Visit}
    (h : Noted height nexts visit noted) (hlast : Noted height others noted last) :
    Noted height (nexts ++ others) visit last where
  size := hlast.size.trans h.size
  peak := hlast.peak.trans h.peak
  work := hlast.work.trans h.work
  kept index height hheight := hlast.kept _ _ (h.kept _ _ hheight)
  fresh index found hfound := by
    rcases hlast.fresh index found hfound with hfound | ⟨hmem, hheight, hpending⟩
    · rcases h.fresh index found hfound with hfound | ⟨hmem, hheight, hpending⟩
      · exact .inl hfound
      · exact .inr ⟨List.mem_append_left _ hmem, hheight, hlast.pending index hpending⟩
    · exact .inr ⟨List.mem_append_right _ hmem, hheight, hpending⟩
  pending index hpending := hlast.pending index (h.pending index hpending)
  pendingSeen index hpending := by
    rcases hlast.pendingSeen index hpending with hpending | hseen
    · rcases h.pendingSeen index hpending with hpending | ⟨found, hfound⟩
      · exact .inl hpending
      · exact .inr ⟨found, hlast.kept _ _ hfound⟩
    · exact .inr hseen
  seen index hmem hlt := by
    rcases List.mem_append.mp hmem with hmem | hmem
    · exact hlast.keeps_seen (h.seen index hmem hlt)
    · exact hlast.seen index hmem (h.size ▸ hlt)

theorem noted_foldl (height : Int) (nexts : List Nat) (visit : Visit) :
    Noted height nexts visit (nexts.foldl (Visit.reach height) visit) := by
  induction nexts generalizing visit with
  | nil => exact .refl height visit
  | cons next rest ih => exact (noted_reach height visit next).trans (ih _)

/-- What holds of a visit at every time, where the heights are consistent. -/
structure Sound (isa : InstructionSet) (slots : List Slot) (heights : Nat → Int) (visit : Visit) :
    Prop where
  size : visit.heights.size = slots.length
  reached : ∀ (index : Nat) (height : Int), visit.heights[index]? = some (some height) →
    Reachable isa slots index ∧ height = heights index
  pending : ∀ index ∈ visit.pending, visit.Seen index
  first : 0 < slots.length → visit.Seen 0
  peak : visit.peak ∈ slotHeights isa slots heights
  nonneg : 0 ≤ visit.peak
  /-- A slot that was visited counts, and what follows it is seen. -/
  visited : ∀ index effect, visit.Seen index → index ∉ visit.pending → Adds isa slots index effect →
    heights index + effect ≤ visit.peak ∧ ∀ next, Follows isa slots index next → visit.Seen next

/-- Visiting a slot keeps the visit sound. -/
theorem Sound.visit {visit noted : Visit} {index : Nat} {pending : List Nat} {slot : Slot}
    {effect : Int} (h : Sound isa slots heights visit) (hconsistent : Consistent isa slots heights)
    (hpending : visit.pending = index :: pending) (hslot : slots[index]? = some slot)
    (heffect : slot.instruction.stackEffect isa = .ok effect)
    (hnoted : Noted (heights index + effect) (successors isa index slot)
      { visit with pending, peak := max visit.peak (heights index + effect) } noted) :
    Sound isa slots heights noted := by
  obtain ⟨hsize, hreached, hseen, hfirst, hpeak, hnonneg, hvisited⟩ := h
  have hadds : Adds isa slots index effect := ⟨slot, hslot, heffect⟩
  obtain ⟨height, hheight⟩ := hseen index (hpending ▸ List.mem_cons_self)
  have hreachable := (hreached index height hheight).1
  have hlast : noted.peak = max visit.peak (heights index + effect) := hnoted.peak
  refine ⟨hnoted.size.trans hsize, fun other found hfound => ?_, fun other hother => ?_,
    fun hsome => hnoted.keeps_seen (hfirst hsome), ?_, ?_, fun other added hother hout hadded => ?_⟩
  · rcases hnoted.fresh other found hfound with hfound | ⟨hmem, rfl, -⟩
    · exact hreached other found hfound
    · have hlt : other < slots.length := by
        obtain ⟨hlt, -⟩ := Array.getElem?_eq_some_iff.mp hfound
        rw [← hsize]
        exact hnoted.size ▸ hlt
      have hfollows := (follows_iff hslot).mpr ⟨hmem, hlt⟩
      exact ⟨hreachable.step hfollows, (hconsistent.along _ _ _ hreachable hadds hfollows).symm⟩
  · rcases hnoted.pendingSeen other hother with hother | hother
    · exact hnoted.keeps_seen (hseen other (hpending ▸ List.mem_cons_of_mem _ hother))
    · exact hother
  · rw [hlast]
    rcases max_choice visit.peak (heights index + effect) with hmax | hmax
    · rw [hmax]
      exact hpeak
    · rw [hmax]
      exact .inr ⟨index, effect, hreachable, hadds, rfl⟩
  · rw [hlast]
    exact le_max_of_le_left hnonneg
  · rw [hlast]
    by_cases hsame : other = index
    · subst hsame
      rw [hadded.unique hadds]
      refine ⟨le_max_right _ _, fun next hfollows => ?_⟩
      obtain ⟨hmem, hlt⟩ := (follows_iff hslot).mp hfollows
      exact hnoted.seen next hmem (hsize ▸ hlt)
    · obtain ⟨hearlier, hout⟩ := hnoted.settled hother hout
      have hsettled : other ∉ visit.pending := by
        rw [hpending]
        exact List.not_mem_cons_of_ne_of_not_mem hsame hout
      obtain ⟨hle, hnext⟩ := hvisited other added hearlier hsettled hadded
      exact ⟨le_max_of_le_left hle, fun next hfollows => hnoted.keeps_seen (hnext next hfollows)⟩

/-- With fuel for the work that is left, a sound visit comes to its end. -/
theorem Sound.run (hconsistent : Consistent isa slots heights)
    (hmeasurable : Measurable isa slots) :
    ∀ {fuel : Nat} {visit : Visit}, Sound isa slots heights visit → visit.work ≤ fuel →
      ∃ last, Visit.run isa slots.toArray fuel visit = .ok last ∧
        Sound isa slots heights last ∧ last.pending = [] := by
  intro fuel
  induction fuel with
  | zero =>
    intro visit h hwork
    refine ⟨visit, rfl, h, List.eq_nil_of_length_eq_zero ?_⟩
    rw [work] at hwork
    omega
  | succ fuel ih =>
    intro visit h hwork
    rw [Visit.run]
    cases hpending : visit.pending with
    | nil => exact ⟨visit, rfl, h, hpending⟩
    | cons index pending =>
      obtain ⟨height, hheight⟩ := h.pending index (hpending ▸ List.mem_cons_self)
      obtain ⟨hreachable, rfl⟩ := h.reached index height hheight
      obtain ⟨effect, slot, hslot, heffect⟩ := hmeasurable index hreachable.lt
      have hnonneg := hconsistent.nonneg index effect hreachable ⟨slot, hslot, heffect⟩
      have hbehind : max 0 ((visit.heights[index]?.join.getD 0) + effect) =
          heights index + effect := by
        rw [hheight]
        exact max_eq_right hnonneg
      simp only [List.getElem?_toArray, hslot, heffect, hbehind]
      have hnoted := noted_foldl (heights index + effect) (successors isa index slot)
        { visit with pending, peak := max visit.peak (heights index + effect) }
      refine ih (h.visit hconsistent hpending hslot heffect hnoted) ?_
      rw [work, hpending, List.length_cons] at hwork
      rw [hnoted.work]
      show visit.heights.count none + pending.length ≤ fuel
      omega

/-- At the end of a visit every slot that paths come to is seen. -/
theorem Sound.complete {visit : Visit} (h : Sound isa slots heights visit)
    (hmeasurable : Measurable isa slots) (hpending : visit.pending = []) {index : Nat}
    (hreachable : Reachable isa slots index) : visit.Seen index := by
  obtain ⟨hsome, hreach⟩ := hreachable
  induction hreach with
  | refl => exact h.first hsome
  | @tail index next hreach hfollows ih =>
    obtain ⟨effect, hadds⟩ := hmeasurable index (Reachable.lt ⟨hsome, hreach⟩)
    exact (h.visited index effect ih (by simp [hpending]) hadds).2 next hfollows

/-- The height of a visit that has come to its end is the greatest one. -/
theorem Sound.isGreatest {visit : Visit} (h : Sound isa slots heights visit)
    (hmeasurable : Measurable isa slots) (hpending : visit.pending = []) :
    IsGreatest (slotHeights isa slots heights) visit.peak := by
  refine ⟨h.peak, ?_⟩
  rintro height (rfl | ⟨index, effect, hreachable, hadds, rfl⟩)
  · exact h.nonneg
  · have hseen := h.complete hmeasurable hpending hreachable
    exact (h.visited index effect hseen (by simp [hpending]) hadds).1

/-- A visit in front of the first slot. -/
def start (slots : List Slot) : Visit :=
  { heights := Array.replicate slots.length none, pending := [], peak := 0 }

theorem not_seen_start (slots : List Slot) (index : Nat) : ¬(start slots).Seen index := by
  rintro ⟨height, hheight⟩
  rw [start, Array.getElem?_replicate] at hheight
  split at hheight
  · cases hheight
  · cases hheight

/-- Once the first slot is noted there is work for all of them. -/
theorem work_reach_start (slots : List Slot) :
    ((start slots).reach 0 0).work = slots.length := by
  rw [work_reach]
  simp [work, start, Array.count_replicate_self]

theorem sound_start (hconsistent : Consistent isa slots heights) :
    Sound isa slots heights ((start slots).reach 0 0) := by
  have hnoted := noted_reach 0 (start slots) 0
  have hsize : ((start slots).reach 0 0).heights.size = slots.length :=
    hnoted.size.trans Array.size_replicate
  refine ⟨hsize, fun index found hfound => ?_, fun index hindex => ?_, fun hsome => ?_, ?_, ?_,
    fun index effect hseen hout => ?_⟩
  · rcases hnoted.fresh index found hfound with hfound | ⟨hmem, rfl, -⟩
    · exact absurd ⟨found, hfound⟩ (not_seen_start slots index)
    · cases List.mem_singleton.mp hmem
      obtain ⟨hlt, -⟩ := Array.getElem?_eq_some_iff.mp hfound
      exact ⟨⟨hsize ▸ hlt, .refl⟩, hconsistent.first.symm⟩
  · rcases hnoted.pendingSeen index hindex with hindex | hindex
    · cases hindex
    · exact hindex
  · exact hnoted.seen 0 List.mem_cons_self (by rwa [start, Array.size_replicate])
  · rw [hnoted.peak]
    exact .inl rfl
  · rw [hnoted.peak]
    exact Int.le_refl 0
  · exact absurd (hnoted.settled hseen hout).1 (not_seen_start slots index)

end Visit

/-- Visiting each slot once shows the greatest height behind a slot that is reached. -/
theorem Consistent.peak (h : Consistent isa slots heights) (hmeasurable : Measurable isa slots) :
    ∃ height, peak isa slots = .ok height ∧
      IsGreatest (slotHeights isa slots heights) height := by
  have hwork : ((Visit.start slots).reach 0 0).work ≤ slots.length + 1 :=
    (Visit.work_reach_start slots).trans_le (Nat.le_succ slots.length)
  obtain ⟨last, hlast, hsound, hpending⟩ :=
    (Visit.sound_start h).run h hmeasurable hwork
  refine ⟨last.peak, ?_, hsound.isGreatest hmeasurable hpending⟩
  rw [StackHeight.peak]
  exact bind_eq_ok.mpr ⟨last, hlast, rfl⟩

/-- Every instruction of a flattened graph has a stack effect. -/
theorem measurable_of_flatten {graph : Graph} {verify : Bool} {flat : Flat}
    (h : graph.flatten verify = .ok flat) : Measurable graph.isa flat.slots := by
  obtain ⟨blocks, hlinear, hflat⟩ := bind_eq_ok.mp h
  obtain ⟨-, hslots, -⟩ := (Flat.ofBlocks_eq_ok (Graph.linearize_perm hlinear).2).mp hflat
  intro index hlt
  have hslot : flat.slots[index]? = some flat.slots[index] := List.getElem?_eq_getElem hlt
  obtain ⟨instruction, -, hresolved⟩ := exists_of_mem_right hslots (List.getElem_mem hlt)
  obtain ⟨effect, heffect⟩ := Instruction.exists_stackEffect hresolved.kind
  exact ⟨effect, _, hslot, hresolved.same ▸ heffect⟩

end StackHeight

namespace Assembly

open StackHeight

theorem le_max_word (left right : UInt32) : right ≤ max left right := by
  show right ≤ if left ≤ right then right else left
  split
  · exact UInt32.le_refl right
  · rename_i h
    exact (UInt32.le_total left right).resolve_left h

/-- Where the heights of a flattened graph are consistent, the measured height is the greatest one
behind the slots that are reached, and along all paths.  An assembly declares no smaller stack,
if the height fits a word. -/
theorem peak_of_consistent {graph : Graph} {verify : Bool} {flat : Flat} {heights : Nat → Int}
    (hflat : graph.flatten verify = .ok flat)
    (hconsistent : Consistent graph.isa flat.slots heights) :
    ∃ height, peak graph.isa flat.slots = .ok height ∧
      IsGreatest (slotHeights graph.isa flat.slots heights) height ∧
      IsGreatest (pathHeights graph.isa flat.slots) height ∧
      (height < 0x100000000 → ∀ settings assembly, settings.verify = verify →
        settings.measureStack = true → graph.assemble settings = .ok assembly →
        assembly.stackHeight = some (.ofNat height.toNat) ∧
          ∀ along ∈ pathHeights graph.isa flat.slots,
            along ≤ (assembly.metadata.stackSize.toNat : Int)) := by
  have hmeasurable := measurable_of_flatten hflat
  obtain ⟨height, hpeak, hgreatest⟩ := hconsistent.peak hmeasurable
  have hpaths := hconsistent.pathHeights_eq hmeasurable
  refine ⟨height, hpeak, hgreatest, hpaths ▸ hgreatest, ?_⟩
  rintro hword settings assembly rfl hmeasure hassemble
  obtain ⟨other, hother, hassemble⟩ := bind_eq_ok.mp hassemble
  rw [hflat, Except.ok.injEq] at hother
  subst hother
  obtain ⟨layout, -, hassemble⟩ := bind_eq_ok.mp hassemble
  simp only at hassemble
  rw [if_pos hmeasure] at hassemble
  obtain ⟨measured, hmeasured, hassemble⟩ := bind_eq_ok.mp hassemble
  rw [hpeak, Except.ok.injEq] at hmeasured
  subst hmeasured
  cases hassemble
  have hsaturate : saturateToWord height = .ofNat height.toNat := if_pos hword
  refine ⟨congrArg some hsaturate, fun along halong => ?_⟩
  have hle : along ≤ height := (hpaths ▸ hgreatest).2 halong
  have hnonneg : 0 ≤ height := hgreatest.2 (.inl rfl)
  have hheight : ((UInt32.ofNat height.toNat).toNat : Int) = height := by
    rw [UInt32.toNat_ofNat']
    omega
  have hmost := le_max_word graph.metadata.stackSize (saturateToWord height)
  rw [UInt32.le_iff_toNat_le] at hmost
  rw [hsaturate] at hmost ⊢
  show along ≤ ((max graph.metadata.stackSize (.ofNat height.toNat)).toNat : Int)
  omega

/-- A loop whose body is as deep as what is behind it, and two slots that no path comes to. -/
def looping : Graph where
  metadata := default
  isa := .small
  entry := 1
  blocks :=
    [(1, .basic
      { BasicBlock.empty 1 none with
        instructions := [{ opcode := 102, operand := .immediate 0 }]
        jump := some { opcode := 114, operand := .label (.start 3) }
        fallthrough := some (.start 2) }),
     (2, .basic
      { BasicBlock.empty 2 none with
        instructions := [{ opcode := 102, operand := .immediate 0 }, .simple 1]
        jump := some { opcode := 113, operand := .label (.start 1) } }),
     (3, .basic
      { BasicBlock.empty 3 none with
        instructions := [{ opcode := 102, operand := .immediate 0 }, .simple 83] }),
     (4, .basic
      { BasicBlock.empty 4 none with
        instructions := [{ opcode := 102, operand := .immediate 0 },
          { opcode := 102, operand := .immediate 0 }] })]

/-- The slots of `looping`, of which the last two are dead. -/
def loopingFlat : Flat where
  slots :=
    let push : Slot := ⟨{ opcode := 102, operand := .immediate 0 }, .immediate, 0, none⟩
    [push, ⟨{ opcode := 114, operand := .label (.start 3) }, .absoluteJump, 0, some 5⟩,
     push, ⟨.simple 1, .none, 0, none⟩,
     ⟨{ opcode := 113, operand := .label (.start 1) }, .absoluteJump, 0, some 0⟩,
     push, ⟨.simple 83, .none, 0, none⟩, push, push]
  lines := []

theorem looping_flatten : looping.flatten true = .ok loopingFlat := by
  have hlinear : looping.linearize = .ok looping.leaves :=
    Graph.linearize_chain rfl (by decide) ⟨.inr rfl, .inl rfl, .inl rfl, rfl⟩ rfl
  rw [Graph.flatten, hlinear]
  rfl

theorem looping_assemble : ∃ assembly, looping.assemble .strict = .ok assembly := by
  have hflat : looping.flatten AssemblySettings.strict.verify = .ok loopingFlat := looping_flatten
  rw [Graph.assemble, hflat]
  exact ⟨_, rfl⟩

/-- Heights in front of the slots of `looping`. -/
def loopingHeights (index : Nat) : Int := if index ∈ [1, 3, 6, 8] then 1 else 0

theorem looping_consistent : Consistent looping.isa loopingFlat.slots loopingHeights :=
  consistent_of_fit rfl (by decide)

/-- Paths through `looping` need one place on the stack, and its dead slots do not count. -/
theorem looping_peak :
    looping.flatten true = .ok loopingFlat ∧
      Consistent looping.isa loopingFlat.slots loopingHeights ∧
      peak looping.isa loopingFlat.slots = .ok 1 ∧
      IsGreatest (pathHeights looping.isa loopingFlat.slots) 1 ∧
      ∃ assembly, looping.assemble .strict = .ok assembly ∧
        assembly.stackHeight = some 1 ∧
          ∀ along ∈ pathHeights looping.isa loopingFlat.slots,
            along ≤ (assembly.metadata.stackSize.toNat : Int) := by
  obtain ⟨height, hpeak, -, hpaths, hbound⟩ :=
    peak_of_consistent looping_flatten looping_consistent
  cases hpeak
  obtain ⟨assembly, hassemble⟩ := looping_assemble
  exact ⟨looping_flatten, looping_consistent, rfl, hpaths, assembly, hassemble,
    hbound (by decide) .strict assembly rfl rfl hassemble⟩

end Assembly
end StackCode
