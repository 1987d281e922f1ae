import StackCode.Proofs.Assembly.StackPaths
import StackCode.Proofs.Code.Totals
import StackCode.Proofs.InstructionSet.Effects

/-!
The range of stack heights.

Effects are numbers of 32 bits, and code has fewer instructions than there are words.  A height that
is noted at a slot has come about by at most one effect for each slot that was visited before, and a
total of a run by one effect for each instruction that was passed.  All of them are thus numbers of
64 bits, and so is each sum on the way, wherever a visit goes and however often a run is resumed.
-/

namespace StackCode

/-! ## Heights of a visit -/

namespace StackHeight
namespace Visit

variable {isa : InstructionSet} {slots : List Slot} {visit next : Visit}

/-- The height that a slot is visited with. -/
def heightAt (visit : Visit) (index : Nat) : Int := visit.heights[index]?.join.getD 0

/-- One round of a visit: the pending slot that is next is visited, and what can follow it is reached
with the height behind it. -/
inductive Round (isa : InstructionSet) (slots : List Slot) : Visit → Visit → Prop where
  | outside {visit : Visit} {index : Nat} {pending : List Nat}
    (hpending : visit.pending = index :: pending) (hslot : slots[index]? = none) :
    Round isa slots visit { visit with pending }
  | inside {visit : Visit} {index : Nat} {pending : List Nat} {slot : Slot} {effect height : Int}
    (hpending : visit.pending = index :: pending) (hslot : slots[index]? = some slot)
    (heffect : slot.instruction.stackEffect isa = .ok effect)
    (hheight : height = max 0 (visit.heightAt index + effect)) :
    Round isa slots visit ((successors isa index slot).foldl (reach height)
      { visit with pending, peak := max visit.peak height })

/-- Some rounds lead from the first slot to where the visit stands. -/
def Comes (isa : InstructionSet) (slots : List Slot) (visit : Visit) : Prop :=
  Relation.ReflTransGen (Round isa slots) ((start slots).reach 0 0) visit

/-- The slot to visit next has no effect. -/
def Stuck (isa : InstructionSet) (slots : List Slot) (visit : Visit) (error : Error) : Prop :=
  ∃ index pending slot, visit.pending = index :: pending ∧ slots[index]? = some slot ∧
    slot.instruction.stackEffect isa = .error error

/-- A run goes round by round, until nothing is pending, if there is fuel for the work that is left,
or until it is stuck. -/
theorem run_rounds (isa : InstructionSet) (slots : List Slot) :
    ∀ (fuel : Nat) (visit : Visit), ∃ last, Relation.ReflTransGen (Round isa slots) visit last ∧
      (run isa slots.toArray fuel visit = .ok last ∧ (visit.work ≤ fuel → last.pending = []) ∨
        ∃ error, run isa slots.toArray fuel visit = .error error ∧ last.Stuck isa slots error) := by
  intro fuel
  induction fuel with
  | zero =>
    refine fun visit => ⟨visit, .refl, .inl ⟨rfl, fun hwork => ?_⟩⟩
    refine List.eq_nil_of_length_eq_zero ?_
    rw [work] at hwork
    omega
  | succ fuel ih =>
    intro visit
    rw [run]
    cases hpending : visit.pending with
    | nil => exact ⟨visit, .refl, .inl ⟨rfl, fun _ => hpending⟩⟩
    | cons index pending =>
      -- What the work comes to once the slot is taken out.
      have hless : visit.work ≤ fuel + 1 → visit.heights.count none + pending.length ≤ fuel := by
        intro hwork
        rw [work, hpending, List.length_cons] at hwork
        omega
      simp only [List.getElem?_toArray]
      cases hslot : slots[index]? with
      | none =>
        obtain ⟨last, hrounds, hends⟩ := ih { visit with pending }
        refine ⟨last, .head (.outside hpending hslot) hrounds, hends.imp_left ?_⟩
        exact And.imp_right fun hdone hwork => hdone (hless hwork)
      | some slot =>
        cases heffect : slot.instruction.stackEffect isa with
        | error error =>
          simp only [heffect]
          exact ⟨visit, .refl, .inr ⟨error, rfl, index, pending, slot, hpending, hslot, heffect⟩⟩
        | ok effect =>
          simp only [heffect]
          obtain ⟨last, hrounds, hends⟩ := ih _
          refine ⟨last, .head (.inside hpending hslot heffect rfl) hrounds, hends.imp_left ?_⟩
          refine And.imp_right fun hdone hwork => hdone ?_
          rw [(noted_foldl _ _ _).work]
          exact hless hwork

/-- After some number of rounds there is work for the other slots only, and no height is greater
than the effects of these rounds can make it. -/
structure Within (slots : List Slot) (rounds : Nat) (visit : Visit) : Prop where
  work : rounds + visit.work ≤ slots.length
  heights : ∀ (index : Nat) (height : Int), visit.heights[index]? = some (some height) →
    0 ≤ height ∧ height ≤ 0x7fffffff * rounds
  peak : 0 ≤ visit.peak ∧ visit.peak ≤ 0x7fffffff * rounds

theorem within_start (slots : List Slot) : Within slots 0 ((start slots).reach 0 0) := by
  have hnoted := noted_reach 0 (start slots) 0
  refine ⟨?_, fun index height hheight => ?_, ?_⟩
  · rw [work_reach_start, Nat.zero_add]
  · rcases hnoted.fresh index height hheight with hearlier | ⟨-, rfl, -⟩
    · exact absurd ⟨height, hearlier⟩ (not_seen_start slots index)
    · exact ⟨Int.le_refl 0, Int.le_refl 0⟩
  · rw [hnoted.peak]
    exact ⟨Int.le_refl 0, Int.le_refl 0⟩

theorem Within.heightAt {rounds : Nat} (h : Within slots rounds visit) (index : Nat) :
    0 ≤ visit.heightAt index ∧ visit.heightAt index ≤ 0x7fffffff * rounds := by
  rw [Visit.heightAt]
  cases hheight : visit.heights[index]? with
  | none => exact ⟨Int.le_refl 0, by simp only [Option.join_none, Option.getD_none]; omega⟩
  | some noted =>
    cases noted with
    | none => exact ⟨Int.le_refl 0, by simp only [Option.join_some, Option.getD_none]; omega⟩
    | some height => exact h.heights index height hheight

theorem Within.round {rounds : Nat} (h : Within slots rounds visit)
    (hround : Round isa slots visit next) : Within slots (rounds + 1) next := by
  cases hround with
  | @outside index pending hpending hslot =>
    have hwork := h.work
    rw [Visit.work, hpending, List.length_cons] at hwork
    refine ⟨?_, fun other height hheight => ?_, ?_⟩
    · show rounds + 1 + (visit.heights.count none + pending.length) ≤ slots.length
      omega
    · have := h.heights other height hheight
      omega
    · have := h.peak
      show 0 ≤ visit.peak ∧ visit.peak ≤ 0x7fffffff * ((rounds + 1 : Nat) : Int)
      omega
  | @inside index pending slot effect height hpending hslot heffect hheight =>
    have hnoted := noted_foldl height (successors isa index slot)
      { visit with pending, peak := max visit.peak height }
    have hbefore := h.heightAt index
    obtain ⟨-, heffect'⟩ := Instruction.stackEffect_bounds heffect
    have hbehind : 0 ≤ height ∧ height ≤ 0x7fffffff * ((rounds + 1 : Nat) : Int) := by omega
    have hwork := h.work
    rw [Visit.work, hpending, List.length_cons] at hwork
    refine ⟨?_, fun other found hfound => ?_, ?_⟩
    · rw [hnoted.work]
      show rounds + 1 + (visit.heights.count none + pending.length) ≤ slots.length
      omega
    · rcases hnoted.fresh other found hfound with hfound | ⟨-, rfl, -⟩
      · have := h.heights other found hfound
        omega
      · exact hbehind
    · rw [hnoted.peak]
      have := h.peak
      show 0 ≤ max visit.peak height ∧
        max visit.peak height ≤ 0x7fffffff * ((rounds + 1 : Nat) : Int)
      omega

theorem Comes.within (h : Comes isa slots visit) : ∃ rounds, Within slots rounds visit := by
  induction h with
  | refl => exact ⟨0, within_start slots⟩
  | tail _ hround ih =>
    obtain ⟨rounds, hwithin⟩ := ih
    exact ⟨rounds + 1, hwithin.round hround⟩

/-- The heights of a visit, and the sum that its next round takes, are words of 64 bits. -/
structure InRange (isa : InstructionSet) (slots : List Slot) (visit : Visit) : Prop where
  heights : ∀ (index : Nat) (height : Int), visit.heights[index]? = some (some height) →
    FitsInt64 height
  peak : FitsInt64 visit.peak
  adds : ∀ (index : Nat) (pending : List Nat) (slot : Slot) (effect : Int),
    visit.pending = index :: pending → slots[index]? = some slot →
    slot.instruction.stackEffect isa = .ok effect → AddsInInt64 (visit.heightAt index) effect

theorem Comes.inRange (h : Comes isa slots visit) (hcount : slots.length < 0x100000000) :
    visit.InRange isa slots := by
  obtain ⟨rounds, hwithin⟩ := h.within
  have hrounds : rounds ≤ slots.length := Nat.le_of_add_right_le hwithin.work
  have hfits : ∀ height : Int, 0 ≤ height ∧ height ≤ 0x7fffffff * (rounds : Int) →
      FitsInt64 height := by
    intro height hheight
    constructor <;> omega
  refine ⟨fun index height hheight => hfits height (hwithin.heights index height hheight),
    hfits visit.peak hwithin.peak, fun index pending slot effect _ _ heffect => ?_⟩
  have hbefore := hwithin.heightAt index
  have heffect' := Instruction.stackEffect_bounds heffect
  refine (hfits _ hbefore).adds (fitsInt64_of_bounds heffect') ?_
  constructor <;> omega

end Visit

/-- The greatest height is that of a visit which has come to its end, unless the visit is stuck. -/
theorem exists_comes (isa : InstructionSet) (slots : List Slot) :
    ∃ last, Visit.Comes isa slots last ∧
      (peak isa slots = .ok last.peak ∧ last.pending = [] ∨
        ∃ error, peak isa slots = .error error ∧ last.Stuck isa slots error) := by
  obtain ⟨last, hrounds, hends⟩ :=
    Visit.run_rounds isa slots (slots.length + 1) ((Visit.start slots).reach 0 0)
  refine ⟨last, hrounds, ?_⟩
  rcases hends with ⟨hrun, hdone⟩ | ⟨error, hrun, hstuck⟩
  · refine .inl ⟨Outcome.bind_eq_ok.mpr ⟨last, hrun, rfl⟩, hdone ?_⟩
    rw [Visit.work_reach_start]
    exact Nat.le_succ slots.length
  · exact .inr ⟨error, Outcome.bind_eq_error.mpr (.inl hrun), hstuck⟩

end StackHeight

/-! ## Totals of a run -/

namespace WeightedRun

/-- The weights of the tokens are words of 32 bits. -/
def Light {τ ν : Type} (sequence : Array τ) (run : WeightedRun τ ν) : Prop :=
  ∀ item ∈ sequence, ∀ weight, run.weight item = .ok weight →
    -0x80000000 ≤ weight ∧ weight ≤ 0x7fffffff

/-- The total at a position is one that the tokens from `start` on can make. -/
structure Tally {τ : Type} (sequence : Array τ) (start position : Nat) (total : Int) : Prop where
  behind : start ≤ position
  passed : position = start ∨ position ≤ sequence.size
  least : -0x80000000 * ((position - start : Nat) : Int) ≤ total
  greatest : total ≤ 0x7fffffff * ((position - start : Nat) : Int)

theorem tally_start {τ : Type} (sequence : Array τ) (start : Nat) : Tally sequence start start 0 :=
  ⟨Nat.le_refl start, .inl rfl, by simp, by simp⟩

theorem Tally.pass {τ ν : Type} {sequence : Array τ} {run : WeightedRun τ ν} {start position : Nat}
    {total weight : Int} {item : τ} (h : Tally sequence start position total)
    (hlight : Light sequence run) (hitem : sequence[position]? = some item)
    (hweight : run.weight item = .ok weight) :
    Tally sequence start (position + 1) (total + weight) := by
  obtain ⟨hbehind, -, hleast, hgreatest⟩ := h
  obtain ⟨hlt, -⟩ := Array.getElem?_eq_some_iff.mp hitem
  have hbounds := hlight item (Array.mem_of_getElem? hitem) weight hweight
  exact ⟨by omega, .inr hlt, by omega, by omega⟩

section Cursors

variable {τ ν : Type} [Capturable τ ν] [DecidableEq τ] {sequence : Array τ} {run : WeightedRun τ ν}
  {start position : Nat} {total : Int}

/-- A run from `start` comes to a cursor, by passing tokens one by one within an advance, and by
advances that each give a way and are followed by another one. -/
inductive Comes (sequence : Array τ) (run : WeightedRun τ ν) (start : Nat) : Cursor τ ν → Prop where
  | start : Comes sequence run start (.weighted run start 0 none)
  | pass {position : Nat} {total weight : Int} {scope : Option ScopeToken} {item : τ}
    (h : Comes sequence run start (.weighted run position total scope))
    (hitem : sequence[position]? = some item) (hweight : run.weight item = .ok weight) :
    Comes sequence run start (.weighted run (position + 1) (total + weight) none)
  | way {cursor next : Cursor τ ν} {fuel stop : Nat} {captures after : Captures ν}
    (h : Comes sequence run start cursor)
    (hway : cursor.advance sequence fuel captures = .way stop next after) :
    Comes sequence run start next

/-- An advance that gives a way leaves the run with a total of its tokens. -/
theorem Tally.advance {scope : Option ScopeToken} {captures : Captures ν} {outcome : Advance τ ν}
    (hlight : Light sequence run) (h : Tally sequence start position total)
    (hadvance : Advances sequence (.weighted run position total scope) captures outcome) :
    ∀ stop next after, outcome = .way stop next after → ∃ position total scope,
      next = .weighted run position total scope ∧ Tally sequence start position total := by
  generalize hcursor : Cursor.weighted run position total scope = cursor at hadvance
  induction hadvance generalizing position total scope with
  | weightedWay hexit hitem hweight haccepts =>
    cases hcursor
    intro stop next after hway
    cases hway
    exact ⟨_, _, _, rfl, h.pass hlight hitem hweight⟩
  | weightedOn hexit hitem hweight haccepts hrest ih =>
    cases hcursor
    exact ih (h.pass hlight hitem hweight) rfl
  | starved => exact fun _ _ _ hway => nomatch hway
  | weightedStuck => exact fun _ _ _ hway => nomatch hway
  | weightedPast => exact fun _ _ _ hway => nomatch hway
  | weightedFailed => exact fun _ _ _ hway => nomatch hway
  | _ => cases hcursor

theorem Comes.tally {cursor : Cursor τ ν} (h : Comes sequence run start cursor)
    (hlight : Light sequence run) : ∃ position total scope,
      cursor = .weighted run position total scope ∧ Tally sequence start position total := by
  induction h with
  | start => exact ⟨start, 0, none, rfl, tally_start sequence start⟩
  | pass _ hitem hweight ih =>
    obtain ⟨position, total, scope, hcursor, htally⟩ := ih
    cases hcursor
    exact ⟨_, _, none, rfl, htally.pass hlight hitem hweight⟩
  | @way cursor next fuel stop captures after _ hway ih =>
    obtain ⟨position, total, scope, rfl, htally⟩ := ih
    have hadvance := Cursor.advances sequence fuel (.weighted run position total scope) captures
    exact htally.advance hlight hadvance stop next after hway

/-- The total of a run, and the sum with the weight that comes next, are words of 64 bits. -/
def InRange (sequence : Array τ) (run : WeightedRun τ ν) (cursor : Cursor τ ν) : Prop :=
  ∃ position total scope, cursor = .weighted run position total scope ∧ FitsInt64 total ∧
    ∀ item weight, sequence[position]? = some item → run.weight item = .ok weight →
      AddsInInt64 total weight

theorem Comes.inRange {cursor : Cursor τ ν} (h : Comes sequence run start cursor)
    (hlight : Light sequence run) (hcount : sequence.size < 0x100000000) :
    InRange sequence run cursor := by
  obtain ⟨position, total, scope, hcursor, htally⟩ := h.tally hlight
  have hfits : ∀ {position : Nat} {total : Int}, Tally sequence start position total →
      FitsInt64 total := by
    rintro position total ⟨hbehind, hpassed, hleast, hgreatest⟩
    constructor <;> omega
  refine ⟨position, total, scope, hcursor, hfits htally, fun item weight hitem hweight => ?_⟩
  have hbounds := hlight item (Array.mem_of_getElem? hitem) weight hweight
  exact (hfits htally).adds (fitsInt64_of_bounds hbounds) (hfits (htally.pass hlight hitem hweight))

end Cursors

end WeightedRun

/-- The weights of a stack run are effects. -/
theorem CodePattern.light_heightRun (isa : InstructionSet) (totals : Totals)
    (capture : Option String) (sequence : Array Instruction) :
    (heightRun isa totals capture).Light sequence :=
  fun _ _ _ hweight => Instruction.stackEffect_bounds hweight

/-! ## Both -/

open StackHeight CodePattern

/-- The product and the sum of an effect are words of 64 bits, and computing in words gives the exact
sum, moved to the nearest end of 32 bits.  With fewer slots than words, each height of a visit and
each sum that one of its rounds takes is a word of 64 bits, round by round until the visit ends with
the greatest height or is stuck.  With fewer instructions than words, so is each total of a stack run
and each sum on the way, however often the run is resumed. -/
theorem stackArithmetic_fits (isa : InstructionSet) {slots : List Slot}
    (hslots : slots.length < 0x100000000) {sequence : Array Instruction}
    (hsequence : sequence.size < 0x100000000) :
    (∀ (base perArgument : Int32) (argument : UInt32),
      FitsInt64 (perArgument.toInt * argument.toNat) ∧
        FitsInt64 (perArgument.toInt * argument.toNat + base.toInt) ∧
        ((StackEffect.linear base perArgument).wordDelta argument).toInt =
          clampToWord (perArgument.toInt * argument.toNat + base.toInt)) ∧
      (∀ (effect : StackEffect) (argument : UInt32),
        (effect.wordDelta argument).toInt = effect.delta argument) ∧
      (∀ visit, Visit.Comes isa slots visit → visit.InRange isa slots) ∧
      (∃ last, Visit.Comes isa slots last ∧
        (peak isa slots = .ok last.peak ∧ last.pending = [] ∨
          ∃ error, peak isa slots = .error error ∧ last.Stuck isa slots error)) ∧
      ∀ totals capture start,
        WeightedRun.Comes sequence (heightRun isa totals capture) start
            ((stackRun isa totals capture).cursor start) ∧
          ∀ cursor, WeightedRun.Comes sequence (heightRun isa totals capture) start cursor →
            WeightedRun.InRange sequence (heightRun isa totals capture) cursor := by
  refine ⟨fun base perArgument argument => ?_, StackEffect.toInt_wordDelta,
    fun visit hcomes => hcomes.inRange hslots, exists_comes isa slots,
    fun totals capture start => ⟨.start, fun cursor hcomes => ?_⟩⟩
  · exact ⟨StackEffect.product_fits perArgument argument,
      StackEffect.sum_fits base perArgument argument,
      StackEffect.toInt_wordDelta (.linear base perArgument) argument⟩
  · exact hcomes.inRange (light_heightRun isa totals capture sequence) hsequence

/-- The run over `calling` that has an accepted total behind one instruction and behind three. -/
def callingRun : WeightedRun Instruction CodeCapture := heightRun .small (.oneOf [-1, 1]) none

/-- Two advances, one behind the other, come to the second total. -/
theorem callingRun_comes :
    ∃ scope, WeightedRun.Comes calling callingRun 0 (.weighted callingRun 3 1 scope) :=
  ⟨_, .way (.way .start (show Cursor.advance calling 1 _ Captures.empty = .way 1 _ _ from rfl))
    (show Cursor.advance calling 2 _ Captures.empty.enter.2 = .way 3 _ _ from rfl)⟩

/-- The least sum is the least word of 64 bits.  A visit of a loop ends with one place on the stack,
and the second way of a run has the total 1. -/
theorem looping_calling_fits :
    Assembly.loopingFlat.slots.length < 0x100000000 ∧ calling.size < 0x100000000 ∧
      FitsInt64 (Int32.minValue.toInt * (0xffffffff : UInt32).toNat + Int32.minValue.toInt) ∧
      ((StackEffect.linear .minValue .minValue).wordDelta 0xffffffff).toInt = -0x80000000 ∧
      (∃ last, Visit.Comes .small Assembly.loopingFlat.slots last ∧ last.pending = [] ∧
        last.peak = 1 ∧ last.InRange .small Assembly.loopingFlat.slots) ∧
      ∃ scope, WeightedRun.Comes calling callingRun 0 (.weighted callingRun 3 1 scope) ∧
        WeightedRun.InRange calling callingRun (.weighted callingRun 3 1 scope) := by
  have hslots : Assembly.loopingFlat.slots.length < 0x100000000 := by decide
  have hsequence : calling.size < 0x100000000 := by decide
  obtain ⟨heffects, -, hvisits, ⟨last, hcomes, hends⟩, hruns⟩ :=
    stackArithmetic_fits .small hslots hsequence
  obtain ⟨-, hsum, hclamped⟩ := heffects .minValue .minValue 0xffffffff
  have hpeak : peak .small Assembly.loopingFlat.slots = .ok 1 := rfl
  obtain ⟨hlast, hpending⟩ : peak .small Assembly.loopingFlat.slots = .ok last.peak ∧
      last.pending = [] := by
    refine hends.resolve_right ?_
    rintro ⟨error, herror, -⟩
    cases hpeak.symm.trans herror
  obtain ⟨scope, htotal⟩ := callingRun_comes
  exact ⟨hslots, hsequence, hsum, hclamped.trans (by decide),
    ⟨last, hcomes, hpending, Except.ok.inj (hlast.symm.trans hpeak), hvisits last hcomes⟩,
    scope, htotal, (hruns (.oneOf [-1, 1]) none 0).2 _ htotal⟩

end StackCode
