import Mathlib.Order.Bounds.Basic
import StackCode.Proofs.Pattern.Emissions

/-!
Repetitions of any token.

Such a repetition can only run out of tokens, so that its ends tell which counts a range was taken for.
They are the counts that lie in the range and fit in front of the end of the sequence, in steps from the
least one that the range could have.
-/

namespace StackCode

/-! ## Ranges -/

namespace Bound

/-- The count lies behind this lower end, or on it if it is included. -/
def opens : Bound → Nat → Bool
  | included least, count => least ≤ count
  | excluded below, count => below < count
  | unbounded, _ => true

/-- The count lies in front of this upper end, or on it if it is included. -/
def closes : Bound → Nat → Bool
  | included most, count => count ≤ most
  | excluded above, count => count < above
  | unbounded, _ => true

/-- The range between two ends has the count. -/
def contains (lower upper : Bound) (count : Nat) : Bool := lower.opens count && upper.closes count

/-- The counts up to `room` in the range between two ends, in steps from `lowest` on. -/
def counts (lower upper : Bound) (lowest step room : Nat) : List Nat :=
  (List.range (room + 1)).filter fun count =>
    contains lower upper count && (count - lowest) % max step 1 = 0

theorem counts_ascending (lower upper : Bound) (lowest step room : Nat) :
    (counts lower upper lowest step room).Pairwise (· < ·) :=
  List.pairwise_lt_range.filter _

variable {lower upper : Bound} {lowest : Nat}

theorem opens_mono {few many : Nat} (h : lower.opens few = true) (hle : few ≤ many) :
    lower.opens many = true := by
  cases lower with
  | included least => exact decide_eq_true (Nat.le_trans (of_decide_eq_true h) hle)
  | excluded below => exact decide_eq_true (Nat.lt_of_lt_of_le (of_decide_eq_true h) hle)
  | unbounded => rfl

theorem opens_iff (hlowest : IsLeast {count | lower.opens count} lowest) (count : Nat) :
    lower.opens count = true ↔ lowest ≤ count :=
  ⟨fun h => hlowest.2 h, opens_mono hlowest.1⟩

/-- There is a least count behind each lower end that does not exclude the greatest one. -/
theorem isLeast_least (hword : ∀ below, lower = excluded below → below < maxCount) :
    IsLeast {count | lower.opens count} lower.least := by
  cases lower with
  | included least =>
    exact ⟨decide_eq_true (Nat.le_refl least), fun count h => of_decide_eq_true h⟩
  | excluded below =>
    have hleast : (excluded below).least = below + 1 := Nat.min_eq_right (hword below rfl)
    rw [hleast]
    exact ⟨decide_eq_true (Nat.lt_succ_self below), fun count h => of_decide_eq_true h⟩
  | unbounded => exact ⟨rfl, fun count _ => Nat.zero_le count⟩

end Bound

theorem filter_range_le (most room : Nat) :
    (List.range (room + 1)).filter (· ≤ most) = List.range (min most room + 1) := by
  induction room with
  | zero => simp
  | succ room ih =>
    rw [List.range_succ, List.filter_append, ih]
    by_cases h : room + 1 ≤ most
    · rw [Nat.min_eq_right (by omega), Nat.min_eq_right h, List.range_succ (n := room + 1)]
      simp [h]
    · rw [Nat.min_eq_left (by omega), Nat.min_eq_left (by omega)]
      simp [h]

/-! ## Ways that there may be -/

namespace Ways

variable {ν : Type} (holds : Bool) (stop : Nat) (env : Bindings ν)

theorem append_done (ways : Ways ν) : ways ++ done = ways := by
  induction ways with
  | done => rfl
  | failed error => rfl
  | way stop env rest ih => rw [way_append, ih]

theorem oneIf_andThen (next : Nat → Bindings ν → Ways ν) :
    (oneIf holds stop env).andThen next = if holds then next stop env else done := by
  cases holds with
  | false => rfl
  | true => exact append_done (next stop env)

theorem oneIf_append_ofList (list : List (Nat × Bindings ν)) :
    oneIf holds stop env ++ ofList list =
      ofList (if holds then (stop, env) :: list else list) := by
  cases holds <;> rfl

end Ways

namespace Pattern

/-! ## Repetitions for a range -/

/-- A range stands for a repetition that is due at the counts in the range, in steps from the least one
that the lower end lets in. -/
theorem repeatStep_eq_repeated {τ ν : Type} (inner : Pattern τ ν) {lower : Bound} (upper : Bound)
    {lowest : Nat} (hlowest : IsLeast {count | lower.opens count} lowest)
    (hword : ∀ below, lower = .excluded below → below < Bound.maxCount) (step : Nat) :
    ∃ fewest most, inner.repeatStep lower upper step = .repeated inner fewest most (max step 1) ∧
      ∀ count, (decide (fewest ≤ count) && most.all (count ≤ ·) &&
          decide ((count - fewest) % max step 1 = 0)) =
        (Bound.contains lower upper count && decide ((count - lowest) % max step 1 = 0)) := by
  have hleast : lower.least = lowest := (Bound.isLeast_least hword).unique hlowest
  have hopens : ∀ count, lower.opens count = decide (lowest ≤ count) := fun count =>
    Bool.eq_iff_iff.mpr ((Bound.opens_iff hlowest count).trans decide_eq_true_iff.symm)
  cases upper with
  | included last =>
    refine ⟨lower.least, some last, rfl, fun count => ?_⟩
    rw [Bound.contains, hopens, hleast]
    rfl
  | excluded above =>
    cases above with
    | zero =>
      -- Nothing lies in front of no copies, which is told by a least count above the greatest.
      refine ⟨Nat.max lower.least 1, some 0, rfl, fun count => ?_⟩
      have hone : 1 ≤ Nat.max lower.least 1 := Nat.le_max_right _ _
      have hnone : (decide (Nat.max lower.least 1 ≤ count) && decide (count ≤ 0)) = false := by
        simp
        omega
      rw [Bound.contains, Option.all_some, hnone]
      simp [Bound.closes]
    | succ above =>
      refine ⟨lower.least, some above, rfl, fun count => ?_⟩
      have hclose : decide (count ≤ above) = (Bound.excluded (above + 1)).closes count :=
        decide_eq_decide.mpr Nat.lt_succ_iff.symm
      rw [Bound.contains, hopens, hleast, Option.all_some, hclose]
  | unbounded =>
    refine ⟨lower.least, none, rfl, fun count => ?_⟩
    rw [Bound.contains, hopens, hleast]
    rfl

/-! ## Copies of any token -/

variable {τ ν : Type} [Capturable τ ν] [DecidableEq τ] {sequence : Array τ}

theorem any_ways (start : Nat) (env : Bindings ν) :
    (any : Pattern τ ν).ways sequence start env =
      .oneIf (start + 1 ≤ sequence.size) (start + 1) env := by
  rw [any, ways]
  by_cases h : start + 1 ≤ sequence.size
  · simp [h, Ways.ofList, Ways.oneIf, Ways.one, Bindings.putIf]
  · simp [h, Ways.ofList, Ways.oneIf]

theorem any_consumes (sequence : Array τ) : (any : Pattern τ ν).Consumes sequence := by
  intro start env way h
  rw [any_ways, Ways.oneIf] at h
  split at h
  · rw [List.mem_singleton.mp h]
    exact Nat.lt_succ_self start
  · exact absurd h List.not_mem_nil

/-- Behind `count` copies of any token there can be as many more as the budget and the tokens allow,
and each number of them that is due is a way. -/
theorem copies_any (isDue : Nat → Bool) (start : Nat) (env : Bindings ν) :
    ∀ budget count, start + count ≤ sequence.size →
      Ways.copies ((any : Pattern τ ν).ways sequence) isDue budget count (start + count) env =
        .ofList (((List.range' count (min budget (sequence.size - (start + count)) + 1)).filter
          isDue).map fun count => (start + count, env)) := by
  intro budget
  induction budget with
  | zero =>
    intro count _
    rw [Ways.copies, Nat.zero_min, List.range'_succ, List.filter_cons]
    cases isDue count <;> rfl
  | succ budget ih =>
    intro count hcount
    -- A further copy needs a further token.
    have hrest : ((any : Pattern τ ν).ways sequence (start + count) env).andThen
          (Ways.copies ((any : Pattern τ ν).ways sequence) isDue budget (count + 1)) =
        .ofList (((List.range' (count + 1)
          (min (budget + 1) (sequence.size - (start + count)))).filter isDue).map
            fun count => (start + count, env)) := by
      rw [any_ways, Ways.oneIf_andThen]
      by_cases hmore : start + count + 1 ≤ sequence.size
      · have hroom : min (budget + 1) (sequence.size - (start + count)) =
            min budget (sequence.size - (start + (count + 1))) + 1 := by omega
        rw [if_pos (decide_eq_true hmore), hroom]
        exact ih (count + 1) hmore
      · have hroom : min (budget + 1) (sequence.size - (start + count)) = 0 := by omega
        rw [if_neg (by simpa using hmore), hroom]
        rfl
    rw [Ways.copies, hrest, List.range'_succ, List.filter_cons, Ways.oneIf_append_ofList]
    cases isDue count <;> rfl

/-- Any number of tokens that a repetition allows and that there are. -/
theorem any_repeated_ways (fewest : Nat) (most : Option Nat) (step : Nat) {start : Nat}
    (hstart : start ≤ sequence.size) (env : Bindings ν) :
    (Pattern.repeated (any : Pattern τ ν) fewest most step).ways sequence start env =
      .ofList (((List.range (sequence.size - start + 1)).filter fun count =>
        fewest ≤ count && most.all (count ≤ ·) && (count - fewest) % Nat.max step 1 = 0).map
          fun count => (start + count, env)) := by
  rw [ways]
  split
  · rename_i hnone
    obtain ⟨last, rfl, hlast⟩ : ∃ last, most = some last ∧ last < fewest := by
      simpa [Option.any_eq_true] using hnone
    rw [List.filter_eq_nil_iff.mpr]
    · rfl
    · intro count _ hcount
      simp at hcount
      omega
  · have hfilter : ((List.range (sequence.size - start + 1)).filter fun count =>
          (fewest ≤ count && (count - fewest) % Nat.max step 1 = 0) &&
            count ≤ most.getD (sequence.size + 1)) =
        (List.range (sequence.size - start + 1)).filter fun count =>
          fewest ≤ count && most.all (count ≤ ·) && (count - fewest) % Nat.max step 1 = 0 := by
      apply List.filter_congr
      intro count hcount
      have hlt := List.mem_range.mp hcount
      cases most with
      | none =>
        have hle : count ≤ sequence.size + 1 := by omega
        simp [hle]
      | some last => simp [Bool.and_right_comm]
    rw [← hfilter, ← List.filter_filter, filter_range_le, List.range_eq_range']
    exact copies_any _ start env (most.getD (sequence.size + 1)) 0 hstart

theorem any_repeated_productive (sequence : Array τ) (fewest : Nat) (most : Option Nat)
    (step : Nat) : (Pattern.repeated (any : Pattern τ ν) fewest most step).Productive sequence :=
  .repeated (.span [1] none) fewest (fun _ => any_consumes sequence) step

/-- Any token, repeated for a range of counts, ends behind as many tokens as there are counts in the
range that do not go past the end of the sequence, in ascending order: every `step`-th one from the
least count on that the lower end lets in, where a step of zero counts as one.  In particular a range
without counts gives no way at all. -/
theorem any_repeatStep_emits {lower upper : Bound} {lowest : Nat}
    (hlowest : IsLeast {count | lower.opens count} lowest)
    (hword : ∀ below, lower = .excluded below → below < Bound.maxCount) (step : Nat) {start : Nat}
    (hstart : start ≤ sequence.size) (captures : Captures ν) :
    (((any : Pattern τ ν).repeatStep lower upper step).cursor start).Emits sequence captures
        (.ofList ((Bound.counts lower upper lowest step (sequence.size - start)).map
          fun count => (start + count, captures.snapshot))) ∧
      (Bound.counts lower upper lowest step (sequence.size - start)).Pairwise (· < ·) ∧
      ((∀ count, Bound.contains lower upper count = false) →
        (((any : Pattern τ ν).repeatStep lower upper step).cursor start).Emits sequence captures
          .done) := by
  obtain ⟨fewest, most, hrange, hdue⟩ :=
    repeatStep_eq_repeated (any : Pattern τ ν) upper hlowest hword step
  have hstep : Nat.max (max step 1) 1 = max step 1 := Nat.max_eq_left (Nat.le_max_right step 1)
  have hcounts : (List.range (sequence.size - start + 1)).filter (fun count =>
        fewest ≤ count && most.all (count ≤ ·) && (count - fewest) % max step 1 = 0) =
      Bound.counts lower upper lowest step (sequence.size - start) :=
    List.filter_congr fun count _ => hdue count
  have hemits :=
    (any_repeated_productive (ν := ν) sequence fewest most (max step 1)).emits start captures
  rw [any_repeated_ways fewest most _ hstart, hstep, hcounts, ← hrange] at hemits
  refine ⟨hemits, Bound.counts_ascending _ _ _ _ _, fun hempty => ?_⟩
  have hnone : Bound.counts lower upper lowest step (sequence.size - start) = [] := by
    simp [Bound.counts, hempty]
  rw [hnone] at hemits
  exact hemits

/-- Every other one of the counts from one to five, with four tokens left for them. -/
theorem excluded_repeatStep_emits :
    IsLeast {count | (Bound.excluded 0).opens count} 1 ∧
      (∀ below, Bound.excluded 0 = .excluded below → below < Bound.maxCount) ∧
      2 ≤ #['a', 'b', 'c', 'd', 'e', 'f'].size ∧
      (((any : Pattern Char (Captured Char)).repeatStep (.excluded 0) (.excluded 6) 2).cursor
        2).Emits #['a', 'b', 'c', 'd', 'e', 'f'] .empty (.way 3 [] (.way 5 [] .done)) := by
  have hword : ∀ below, Bound.excluded 0 = .excluded below → below < Bound.maxCount := by
    intro below h
    rw [← Bound.excluded.inj h]
    decide
  have hlowest : IsLeast {count | (Bound.excluded 0).opens count} 1 := Bound.isLeast_least hword
  have hstart : 2 ≤ #['a', 'b', 'c', 'd', 'e', 'f'].size := by decide
  exact ⟨hlowest, hword, hstart, (any_repeatStep_emits hlowest hword 2 hstart .empty).1⟩

end Pattern
end StackCode
