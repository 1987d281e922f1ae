import StackCode.Pattern.Enumeration
import StackCode.Proofs.Pattern.Trail

/-!
What can be seen of an enumeration.

Two patterns have the same ways if nobody who enumerates them can tell them apart by the ends of the
ways, by the bindings in sight there or by how it ends.  That holds of patterns of which the same is
seen from every horizon, whether or not their ways come to an end.
-/

namespace StackCode

variable {τ ν : Type}

/-! ## Observations -/

/-- How an enumeration ends. -/
inductive Finish where
  /-- As many ways were given as were asked for. -/
  | limit
  | done
  | failed (error : Error)
  | outOfFuel
  deriving DecidableEq, Repr

def Ending.finish : Ending τ ν → Finish
  | .limit _ => .limit
  | .done _ _ => .done
  | .failed error _ => .failed error
  | .outOfFuel => .outOfFuel

/-- The ways, each with its end and the bindings in sight there, and how the enumeration ends. -/
def Ending.observe (enumeration : List (Nat × Captures ν) × Ending τ ν) :
    List (Nat × Bindings ν) × Finish :=
  (enumeration.1.map fun way => (way.1, way.2.snapshot), enumeration.2.finish)

/-- The same for a glimpse.  It takes more than any fuel to get to the horizon. -/
def Glimpse.observe : (limit : Nat) → Glimpse ν → List (Nat × Bindings ν) × Finish
  | 0, _ => ([], .limit)
  | _ + 1, .cut => ([], .outOfFuel)
  | _ + 1, .done => ([], .done)
  | _ + 1, .failed error => ([], .failed error)
  | limit + 1, .way stop env rest =>
    let (ways, finish) := rest.observe limit
    ((stop, env) :: ways, finish)

/-- What is behind the first way. -/
def Glimpse.tail : Glimpse ν → Glimpse ν
  | .way _ _ rest => rest
  | glimpse => glimpse

/-- The glimpse begins with the outcome of an advance that comes to one. -/
inductive Glimpse.Begins : Glimpse ν → Advance τ ν → Prop where
  | done (cursor : Cursor τ ν) (captures : Captures ν) : Begins .done (.done cursor captures)
  | failed (error : Error) (captures : Captures ν) : Begins (.failed error) (.failed error captures)
  | way (stop : Nat) (next : Cursor τ ν) (captures : Captures ν) (rest : Glimpse ν) :
    Begins (.way stop captures.snapshot rest) (.way stop next captures)

theorem Glimpse.Begins.ne_outOfFuel {glimpse : Glimpse ν} {outcome : Advance τ ν}
    (h : glimpse.Begins outcome) : outcome ≠ .outOfFuel := by
  cases h <;> simp

theorem Glimpse.Begins.eq_done {glimpse : Glimpse ν} {cursor : Cursor τ ν} {captures : Captures ν}
    (h : glimpse.Begins (.done cursor captures)) : glimpse = .done := by
  cases h
  rfl

theorem Glimpse.Begins.eq_failed {glimpse : Glimpse ν} {error : Error} {captures : Captures ν}
    (h : glimpse.Begins (.failed error captures : Advance τ ν)) : glimpse = .failed error := by
  cases h
  rfl

theorem Glimpse.Begins.eq_way {glimpse : Glimpse ν} {stop : Nat} {next : Cursor τ ν}
    {captures : Captures ν} (h : glimpse.Begins (.way stop next captures)) :
    glimpse = .way stop captures.snapshot glimpse.tail := by
  cases h
  rfl

variable [Capturable τ ν] [DecidableEq τ]

section Advances

variable {sequence : Array τ} {cursor : Cursor τ ν} {captures : Captures ν}

theorem Takes.unique {need enough : Nat} {outcome other : Advance τ ν}
    (h : Takes sequence need cursor captures outcome) (hne : outcome ≠ .outOfFuel)
    (hother : Takes sequence enough cursor captures other) (hother_ne : other ≠ .outOfFuel) :
    need = enough ∧ outcome = other := by
  have hle : need ≤ enough := by
    refine Nat.le_of_not_lt fun hlt => hother_ne ?_
    rw [← hother.reaches enough (Nat.le_refl _), h.starves enough hlt]
  have hge : enough ≤ need := by
    refine Nat.le_of_not_lt fun hlt => hne ?_
    rw [← h.reaches need (Nat.le_refl _), hother.starves need hlt]
  refine ⟨Nat.le_antisymm hle hge, ?_⟩
  rw [← h.reaches enough hle, hother.reaches enough (Nat.le_refl _)]

theorem Cursor.observe_ways_succ {fuel limit stop : Nat} {next : Cursor τ ν} {opened : Captures ν}
    (h : cursor.advance sequence fuel captures = .way stop next opened) :
    Ending.observe (cursor.ways sequence fuel (limit + 1) captures) =
      ((stop, opened.snapshot) :: (Ending.observe (next.ways sequence fuel limit opened)).1,
        (Ending.observe (next.ways sequence fuel limit opened)).2) := by
  rw [Cursor.ways, h]
  rfl

/-- From some horizon on, the cursor shows what is seen from there. -/
def Cursor.Displays (sequence : Array τ) (glimpses : Nat → Glimpse ν) (cursor : Cursor τ ν)
    (captures : Captures ν) : Prop :=
  ∃ used first, ∀ horizon, first ≤ horizon → ∃ floor low opened fresh,
    captures = floor.atop opened fresh ∧
      Shows sequence floor low (horizon - used) (glimpses horizon) cursor opened fresh

theorem Shows.begins {floor : Captures ν} {low horizon : Nat} {glimpse : Glimpse ν}
    {opened : List (Scope ν)} {fresh : Nat}
    (h : Shows sequence floor low horizon glimpse cursor opened fresh) (hcut : glimpse ≠ .cut) :
    ∃ need outcome, Takes sequence need cursor (floor.atop opened fresh) outcome ∧
      glimpse.Begins outcome := by
  cases glimpse with
  | cut => exact absurd rfl hcut
  | done =>
    obtain ⟨last, need, -, htakes⟩ := h fresh (Nat.le_refl fresh)
    exact ⟨need, _, htakes, .done _ _⟩
  | failed error =>
    obtain ⟨left, need, htakes⟩ := h fresh (Nat.le_refl fresh)
    exact ⟨need, _, htakes, .failed _ _⟩
  | way stop env rest =>
    obtain ⟨next, inner, last, need, -, htakes, -, rfl, -⟩ := h fresh (Nat.le_refl fresh)
    exact ⟨need, _, htakes, .way _ _ _ _⟩

namespace Cursor.Displays

variable {glimpses : Nat → Glimpse ν}

/-- An advance that comes to an outcome does so in sight of every horizon that is far enough. -/
theorem begins (h : cursor.Displays sequence glimpses captures) {need : Nat}
    {outcome : Advance τ ν} (htakes : Takes sequence need cursor captures outcome)
    (hne : outcome ≠ .outOfFuel) :
    ∃ far, ∀ horizon, far ≤ horizon → (glimpses horizon).Begins outcome := by
  obtain ⟨used, first, h⟩ := h
  refine ⟨max first (used + 2 ^ need), fun horizon hhorizon => ?_⟩
  obtain ⟨floor, low, opened, fresh, rfl, hshows⟩ := h horizon (by omega)
  have hcut : glimpses horizon ≠ .cut := by
    intro hcut
    rw [hcut] at hshows
    refine hne ?_
    rw [← htakes.reaches need (Nat.le_refl _)]
    exact hshows fresh (Nat.le_refl _) need (by omega)
  obtain ⟨enough, other, hother, hbegins⟩ := hshows.begins hcut
  rwa [(htakes.unique hne hother hbegins.ne_outOfFuel).2]

theorem tail (h : cursor.Displays sequence glimpses captures) {need stop : Nat}
    {next : Cursor τ ν} {later : Captures ν}
    (htakes : Takes sequence need cursor captures (.way stop next later)) :
    next.Displays sequence (fun horizon => (glimpses horizon).tail) later := by
  obtain ⟨far, hbegins⟩ := h.begins htakes (by simp)
  obtain ⟨used, first, h⟩ := h
  refine ⟨used + 2 ^ need, max far first, fun horizon hhorizon => ?_⟩
  obtain ⟨floor, low, opened, fresh, rfl, hshows⟩ := h horizon (by omega)
  have hbegins := hbegins horizon (by omega)
  dsimp only
  generalize glimpses horizon = glimpse at hshows hbegins ⊢
  cases hbegins with
  | way stop next captures rest =>
    obtain ⟨after, inner, last, enough, -, hother, -, -, hrest⟩ := hshows fresh (Nat.le_refl _)
    obtain ⟨rfl, heq⟩ := htakes.unique (by simp) hother (by simp)
    cases heq
    refine ⟨floor, low, inner, last, rfl, ?_⟩
    rw [← Nat.sub_sub]
    exact hrest

/-- Either no fuel is enough for an advance and all horizons cut, or it comes to an outcome. -/
theorem cut_or_takes (h : cursor.Displays sequence glimpses captures) :
    ((∀ fuel, cursor.advance sequence fuel captures = .outOfFuel) ∧
      ∃ far, ∀ horizon, far ≤ horizon → glimpses horizon = .cut) ∨
    ∃ need outcome, Takes sequence need cursor captures outcome ∧ outcome ≠ .outOfFuel := by
  obtain ⟨used, first, h⟩ := h
  by_cases hcut : ∀ horizon, first ≤ horizon → glimpses horizon = .cut
  · refine Or.inl ⟨fun fuel => ?_, first, hcut⟩
    obtain ⟨floor, low, opened, fresh, rfl, hshows⟩ :=
      h (first + (used + 2 ^ fuel)) (Nat.le_add_right _ _)
    rw [hcut _ (Nat.le_add_right _ _)] at hshows
    exact hshows fresh (Nat.le_refl _) fuel (by omega)
  · obtain ⟨horizon, hhorizon⟩ := Classical.not_forall.mp hcut
    obtain ⟨hfirst, hne⟩ := Classical.not_imp.mp hhorizon
    obtain ⟨floor, low, opened, fresh, rfl, hshows⟩ := h horizon hfirst
    obtain ⟨need, outcome, htakes, hbegins⟩ := hshows.begins hne
    exact Or.inr ⟨need, outcome, htakes, hbegins.ne_outOfFuel⟩

/-- An enumeration with fuel enough is what can be observed from a horizon that is far enough. -/
theorem observe (limit : Nat) : ∀ {glimpses : Nat → Glimpse ν} {cursor : Cursor τ ν}
    {captures : Captures ν}, cursor.Displays sequence glimpses captures →
    ∃ need far, ∀ fuel, need ≤ fuel → ∀ horizon, far ≤ horizon →
      Ending.observe (cursor.ways sequence fuel limit captures) =
        (glimpses horizon).observe limit := by
  induction limit with
  | zero => exact fun _ => ⟨0, 0, fun _ _ _ _ => rfl⟩
  | succ limit ih =>
    intro glimpses cursor captures h
    rcases h.cut_or_takes with ⟨hstarve, far, hcut⟩ | ⟨need, outcome, htakes, hne⟩
    · refine ⟨0, far, fun fuel _ horizon hhorizon => ?_⟩
      rw [Cursor.ways, hstarve, hcut horizon hhorizon]
      rfl
    · obtain ⟨far, hbegins⟩ := h.begins htakes hne
      cases outcome with
      | outOfFuel => exact absurd rfl hne
      | way stop next opened =>
        obtain ⟨enough, beyond, hrest⟩ := ih (h.tail htakes)
        refine ⟨max need enough, max far beyond, fun fuel hfuel horizon hhorizon => ?_⟩
        rw [Cursor.observe_ways_succ (htakes.reaches fuel (by omega)),
          hrest fuel (by omega) horizon (by omega), (hbegins horizon (by omega)).eq_way]
        rfl
      | _ =>
        -- There is nothing behind it, neither of the advances nor of the glimpse.
        refine ⟨need, far, fun fuel hfuel horizon hhorizon => ?_⟩
        have hbegins := hbegins horizon hhorizon
        generalize glimpses horizon = glimpse at hbegins
        cases hbegins
        rw [Cursor.ways, htakes.reaches fuel hfuel]
        rfl

end Cursor.Displays

end Advances

/-! ## Patterns -/

variable {sequence : Array τ}

/-- A cursor that was just made shows what is seen of its pattern, from every horizon. -/
theorem Pattern.Scopeless.displays {pattern : Pattern τ ν} (scopeless : pattern.Scopeless)
    (sequence : Array τ) (start : Nat) (captures : Captures ν) :
    (pattern.cursor start).Displays sequence
      (fun horizon => pattern.glimpse horizon sequence start captures.snapshot) captures :=
  ⟨0, 0, fun horizon _ => ⟨captures, captures.fresh, [], captures.fresh, rfl,
    scopeless.shown horizon sequence start captures _ _ (Nat.le_refl _)⟩⟩

/-- What can be observed of the ways of a pattern is what is seen of them from far enough. -/
theorem Pattern.Scopeless.observe {pattern : Pattern τ ν} (scopeless : pattern.Scopeless)
    (sequence : Array τ) (start : Nat) (captures : Captures ν) (limit : Nat) :
    ∃ need far, ∀ fuel, need ≤ fuel → ∀ horizon, far ≤ horizon →
      Ending.observe ((pattern.cursor start).ways sequence fuel limit captures) =
        (pattern.glimpse horizon sequence start captures.snapshot).observe limit :=
  (scopeless.displays sequence start captures).observe limit

/-- Wherever they start and whatever is bound there, the patterns have the same ways in the same
order, each with the same bindings in sight, and no further ways for the same reason: there are
none, the same error stands behind them, or no fuel is enough to find one. -/
def Pattern.SameWays (sequence : Array τ) (pattern other : Pattern τ ν) : Prop :=
  ∀ start captures limit, ∃ need, ∀ fuel, need ≤ fuel →
    Ending.observe ((pattern.cursor start).ways sequence fuel limit captures) =
      Ending.observe ((other.cursor start).ways sequence fuel limit captures)

theorem Pattern.SameWays.refl (sequence : Array τ) (pattern : Pattern τ ν) :
    SameWays sequence pattern pattern :=
  fun _ _ _ => ⟨0, fun _ _ => rfl⟩

/-- Patterns with different observations, however much fuel there is, match in different ways. -/
theorem Pattern.not_sameWays {pattern other : Pattern τ ν}
    (seen found : List (Nat × Bindings ν) × Finish) (limit enough : Nat)
    (hseen : ∀ more, Ending.observe
      ((pattern.cursor 0).ways sequence (more + enough) limit .empty) = seen)
    (hfound : ∀ more, Ending.observe
      ((other.cursor 0).ways sequence (more + enough) limit .empty) = found)
    (hne : seen ≠ found) : ¬ SameWays sequence pattern other := by
  intro h
  obtain ⟨need, h⟩ := h 0 .empty limit
  rw [← hseen need, ← hfound need] at hne
  exact hne (h (need + enough) (Nat.le_add_right need enough))

theorem Pattern.SameWays.of_glimpse {pattern other : Pattern τ ν} (hpattern : pattern.Scopeless)
    (hother : other.Scopeless)
    (h : ∀ horizon, pattern.glimpse horizon sequence = other.glimpse horizon sequence) :
    SameWays sequence pattern other := by
  intro start captures limit
  obtain ⟨need, far, hleft⟩ := hpattern.observe sequence start captures limit
  obtain ⟨enough, beyond, hright⟩ := hother.observe sequence start captures limit
  refine ⟨max need enough, fun fuel hfuel => ?_⟩
  rw [hleft fuel (by omega) (max far beyond) (Nat.le_max_left _ _),
    hright fuel (by omega) (max far beyond) (Nat.le_max_right _ _), h]

end StackCode
