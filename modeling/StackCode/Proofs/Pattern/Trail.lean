import StackCode.Proofs.Pattern.Nested

/-!
Chains and repetitions: trails of cursors.

An agenda means the ways in which it can be worked off from a place.  A trail that has arrived at
an agenda shows them, and then what its pieces show when they are advanced further.
-/

namespace StackCode

variable {τ ν : Type} [Capturable τ ν] [DecidableEq τ]

/-- From `position` on, the ways of the agenda are those of `meaning`: a trail of any pieces that
arrives there shows them before it goes back to its pieces. -/
def Agenda.Means (sequence : Array τ) (horizon : Nat) (agenda : Agenda τ ν) (position : Nat)
    (meaning : Bindings ν → Glimpse ν) : Prop :=
  ∀ nearer ≤ horizon, ∀ floor low opened pieces others fresh, low ≤ fresh →
    (∀ scope ∈ opened, low ≤ scope.id) →
    Shows sequence floor low nearer others (.trail pieces none) opened fresh →
    Shows sequence floor low nearer (meaning (floor.atop opened fresh).snapshot ++ others)
      (.trail pieces (some (position, agenda, false))) opened fresh

variable {sequence : Array τ} {floor : Captures ν} {low horizon : Nat}

theorem Agenda.Means.of_le {agenda : Agenda τ ν} {position nearer : Nat}
    {meaning : Bindings ν → Glimpse ν} (h : agenda.Means sequence horizon position meaning)
    (hle : nearer ≤ horizon) : agenda.Means sequence nearer position meaning :=
  fun nearest hnearest => h nearest (Nat.le_trans hnearest hle)

/-- The last piece shows its ways, each followed by those of what remains behind it, and then it
is the turn of the pieces before. -/
theorem Shows.pull {others : Glimpse ν} {pieces : List (Cursor τ ν × ScopeToken × Agenda τ ν)}
    {agenda : Agenda τ ν} {next : Nat → Bindings ν → Glimpse ν} {opened : List (Scope ν)}
    {fresh id : Nat} (hlow : low ≤ fresh) (hid : low ≤ id)
    (hopened : ∀ scope ∈ opened, low ≤ scope.id) (glimpse : Glimpse ν) :
    ∀ (horizon : Nat) (piece : Cursor τ ν) (inner : List (Scope ν)) (middle : Nat),
      Shows sequence floor low horizon others (.trail pieces none) opened fresh →
      fresh ≤ middle → (∀ stop, agenda.Means sequence horizon stop (next stop)) →
      Shows sequence (floor.atop ({ id := id, bindings := [] } :: opened) fresh) low horizon
        glimpse piece inner middle →
      Shows sequence floor low horizon (glimpse.andThen next ++ others)
        (.trail ((piece, { id := id }, agenda) :: pieces) none)
        (inner ++ { id := id, bindings := [] } :: opened) middle := by
  have hstarve : ∀ (piece : Cursor τ ν) captures fuel,
      piece.advance sequence fuel captures = .outOfFuel →
      (Cursor.trail ((piece, { id := id }, agenda) :: pieces) none).advance sequence (fuel + 1)
        captures = .outOfFuel := by
    intro piece captures fuel h
    simp only [Cursor.advance, h]
  induction glimpse with
  | cut =>
    intro horizon piece inner middle _ _ _ hpiece
    refine Shows.cut_of_part fun later hlater fuel hfuel => hstarve piece _ fuel ?_
    have hcut := hpiece later hlater fuel hfuel
    rwa [Captures.atop_atop] at hcut
  | done =>
    intro horizon piece inner middle hothers hmiddle _ hpiece
    apply Shows.of_leads
    intro later hlater
    obtain ⟨last, need, hlast, htakes⟩ := hpiece later hlater
    simp only [Captures.atop_atop, List.nil_append] at htakes
    refine ⟨_, opened, last, need, hlast,
      Leads.of_part htakes (hstarve piece _) fun fuel hfound => ?_,
      (hothers.mono (by omega)).of_le (Nat.sub_le _ _)⟩
    simp only [Cursor.advance, hfound, Captures.exit_atop]
  | failed error =>
    intro horizon piece inner middle _ hmiddle _ hpiece later hlater
    obtain ⟨left, need, htakes⟩ := hpiece later hlater
    rw [Captures.atop_atop] at htakes
    refine ⟨left, need + 1, Takes.of_part htakes (hstarve piece _) fun fuel hfound => ?_⟩
    simp only [Cursor.advance, hfound]
  | way stop env rest ih =>
    intro horizon piece inner middle hothers hmiddle hmeans hpiece
    apply Shows.of_leads
    intro later hlater
    obtain ⟨onward, kept, last, need, hlast, htakes, hkept, henv, hrest⟩ := hpiece later hlater
    simp only [Captures.atop_atop] at htakes henv
    refine ⟨.trail ((onward, { id := id }, agenda) :: pieces) (some (stop, agenda, false)),
      kept ++ { id := id, bindings := [] } :: opened, last, need, hlast,
      Leads.of_part htakes (hstarve piece _) fun fuel hfound => ?_, ?_⟩
    · simp only [Cursor.advance, hfound]
    · -- Behind the ways of the agenda from `stop` on, the piece goes on with its own.
      have hagain : Shows sequence floor low (horizon - 2 ^ need) (rest.andThen next ++ others)
          (.trail ((onward, { id := id }, agenda) :: pieces) none)
          (kept ++ { id := id, bindings := [] } :: opened) last :=
        ih _ onward kept last (hothers.of_le (Nat.sub_le _ _)) (by omega)
          (fun stop => (hmeans stop).of_le (Nat.sub_le _ _)) hrest
      have hmeaning := hmeans stop _ (Nat.sub_le _ _) floor low _ _ _ last (by omega)
        (Captures.low_of_append hkept hid [] hopened) hagain
      rw [henv] at hmeaning
      rw [Glimpse.andThen, Glimpse.append_assoc]
      exact hmeaning

/-- At a place that is given as a way if the agenda is complete, what matters is how the trail goes
on from there. -/
theorem Shows.arrive {agenda : Agenda τ ν} {position : Nat} {further : Glimpse ν}
    {pieces : List (Cursor τ ν × ScopeToken × Agenda τ ν)} {opened : List (Scope ν)} {fresh : Nat}
    (hopened : ∀ scope ∈ opened, low ≤ scope.id)
    (hfurther : ∀ wasGiven, (agenda.isComplete && !wasGiven) = false →
      Shows sequence floor low horizon further (.trail pieces (some (position, agenda, wasGiven)))
        opened fresh) :
    Shows sequence floor low horizon
      (Glimpse.oneIf agenda.isComplete position (floor.atop opened fresh).snapshot ++ further)
      (.trail pieces (some (position, agenda, false))) opened fresh := by
  cases hcomplete : agenda.isComplete with
  | false => exact hfurther false (by rw [hcomplete]; rfl)
  | true =>
    intro later hlater
    refine ⟨.trail pieces (some (position, agenda, true)), opened, later, 1, Nat.le_refl later,
      Takes.of_forall fun fuel => ?_, hopened, rfl, ?_⟩
    · rw [Cursor.advance, hcomplete]
      rfl
    · exact ((hfurther true (Bool.and_false _)).mono hlater).of_le (Nat.sub_le _ _)

/-- Nothing can follow: the agenda is complete or there is no way. -/
theorem Agenda.means_of_last {agenda : Agenda τ ν} {position : Nat}
    (hnext : agenda.next? = none) :
    agenda.Means sequence horizon position (Glimpse.oneIf agenda.isComplete position) := by
  intro nearer _ floor low opened pieces others fresh _ hopened hothers
  apply Shows.arrive hopened
  intro wasGiven hgiven
  apply Shows.of_leads
  intro later hlater
  refine ⟨_, opened, later, 0, Nat.le_refl later, Leads.of_forall fun fuel => ?_,
    (hothers.mono hlater).of_le (Nat.sub_le _ _)⟩
  simp only [Cursor.advance, hgiven, hnext]
  rfl

/-- A piece can follow, and then the rest of the agenda from where the piece ends.  It takes an
advance to get there, so that the rest has to be known to a nearer horizon only. -/
theorem Agenda.means_of_next {agenda rest : Agenda τ ν} {piece : Pattern τ ν} {position : Nat}
    {next : Nat → Bindings ν → Glimpse ν} (hnext : agenda.next? = some (piece, rest))
    (hpiece : piece.Shown horizon sequence) {nearer : Nat} (hnearer : nearer ≤ horizon)
    (hrest : ∀ stop, rest.Means sequence (nearer - 1) stop (next stop)) :
    agenda.Means sequence nearer position fun env =>
      Glimpse.oneIf agenda.isComplete position env ++
        (piece.glimpse horizon sequence position env).andThen next := by
  intro nearest hnearest floor low opened pieces others fresh hlow hopened hothers
  show Shows sequence floor low nearest (Glimpse.oneIf _ _ _ ++ _ ++ others) _ opened fresh
  rw [Glimpse.append_assoc]
  apply Shows.arrive hopened
  intro wasGiven hgiven
  apply Shows.of_leads
  intro later hlater
  refine ⟨.trail ((piece.cursor position, { id := later }, rest) :: pieces) none,
    { id := later, bindings := [] } :: opened, later + 1, 0, Nat.le_succ later,
    Leads.of_forall fun fuel => ?_, ?_⟩
  · simp only [Cursor.advance, hgiven, hnext, Captures.enter_atop]
    rfl
  · rw [Nat.pow_zero]
    exact Shows.pull (by omega) (by omega) hopened _ (nearest - 1) (piece.cursor position) []
      (later + 1) ((hothers.mono (by omega)).of_le (Nat.sub_le _ _)) (Nat.le_refl _)
      (fun stop => (hrest stop).of_le (by omega))
      ((hpiece position _ low (later + 1) (by omega)).of_le (by omega))

/-! ## Chains -/

theorem Agenda.means_parts (parts : List (Pattern τ ν))
    (hparts : ∀ part ∈ parts, part.Shown horizon sequence) :
    ∀ position, (Agenda.parts parts).Means sequence horizon position
      (Pattern.chainGlimpse horizon sequence parts position) := by
  induction parts with
  | nil => exact fun position => Agenda.means_of_last rfl
  | cons part rest ih =>
    intro position
    obtain ⟨hpart, hrest⟩ := List.forall_mem_cons.mp hparts
    exact Agenda.means_of_next rfl hpart (Nat.le_refl horizon) fun stop =>
      (ih hrest stop).of_le (Nat.sub_le _ _)

/-- A trail that starts at an agenda shows what the agenda means. -/
theorem Agenda.Means.shows {agenda : Agenda τ ν} {start : Nat} {meaning : Bindings ν → Glimpse ν}
    (hmeans : agenda.Means sequence horizon start meaning) (floor : Captures ν) {low fresh : Nat}
    (hlow : low ≤ fresh) :
    Shows sequence floor low horizon (meaning floor.snapshot)
      (.trail [] (some (start, agenda, false))) [] fresh := by
  have hnothing : Shows sequence floor low horizon .done (.trail [] none) [] fresh :=
    fun later _ => ⟨later, 1, Nat.le_refl later, Takes.of_forall fun fuel => rfl⟩
  have hshows := hmeans horizon (Nat.le_refl horizon) floor low [] [] .done fresh hlow
    (fun _ hscope => absurd hscope List.not_mem_nil) hnothing
  rw [Glimpse.append_done] at hshows
  exact hshows

theorem Pattern.Shown.chain {parts : List (Pattern τ ν)}
    (hparts : ∀ part ∈ parts, part.Shown horizon sequence) :
    (Pattern.chain parts).Shown horizon sequence := fun start floor _ _ hlow =>
  (Agenda.means_parts parts hparts start).shows floor hlow

/-! ## Repetitions -/

/-- `budget` is the number of copies that can still follow or, without an upper end, one that it
takes more than the way to `nearer` to see. -/
def Budget (max : Option Nat) (count nearer budget : Nat) : Prop :=
  match max with
  | some max => budget = max - count
  | none => nearer ≤ budget

theorem Agenda.means_copies {inner : Pattern τ ν} (hinner : inner.Shown horizon sequence)
    (min : Nat) (max : Option Nat) (step : Nat) :
    ∀ budget count position, ∀ nearer ≤ horizon, Budget max count nearer budget →
      (Agenda.copies inner count min max step).Means sequence nearer position
        (Glimpse.copies (inner.glimpse horizon sequence)
          (fun count => min ≤ count && (count - min) % step = 0) max.isSome budget count
            position) := by
  intro budget
  induction budget with
  | zero =>
    intro count position nearer _ hbudget
    cases max with
    | none =>
      intro nearest hnearest floor low opened pieces others fresh _ _ _
      have hzero : nearest = 0 := Nat.le_zero.mp (Nat.le_trans hnearest hbudget)
      rw [hzero]
      exact Shows.cut_zero
    | some max =>
      have hfull : ¬ count < max := by
        have : 0 = max - count := hbudget
        omega
      have hlast : (Agenda.copies inner count min (some max) step).next? = none := by
        rw [Agenda.next?, if_neg (by simpa using hfull)]
      exact Agenda.means_of_last hlast
  | succ budget ih =>
    intro count position nearer hnearer hbudget
    have hnext : (Agenda.copies inner count min max step).next? =
        some (inner, .copies inner (count + 1) min max step) := by
      cases max with
      | none => rfl
      | some max =>
        have hfits : count < max := by
          have : budget + 1 = max - count := hbudget
          omega
        rw [Agenda.next?, if_pos (by simpa using hfits)]
    refine Agenda.means_of_next hnext hinner hnearer fun stop =>
      ih (count + 1) stop (nearer - 1) (by omega) ?_
    cases max with
    | none => exact Nat.sub_le_of_le_add hbudget
    | some max =>
      have : budget + 1 = max - count := hbudget
      show budget = max - (count + 1)
      omega

theorem Pattern.Shown.repeated {inner : Pattern τ ν} (hinner : inner.Shown horizon sequence)
    (min : Nat) (max : Option Nat) (step : Nat) :
    (Pattern.repeated inner min max step).Shown horizon sequence := by
  intro start floor low fresh hlow
  rw [Pattern.glimpse, Pattern.cursor]
  by_cases hempty : max.any (· < min) = true
  · rw [if_pos hempty, if_pos hempty]
    exact Shows.spent sequence floor low fresh
  · rw [if_neg hempty, if_neg hempty]
    have hbudget : Budget max 0 horizon (max.getD (min + horizon)) := by
      cases max with
      | none => exact Nat.le_add_left horizon min
      | some max => rfl
    exact (Agenda.means_copies hinner min max _ _ 0 start horizon (Nat.le_refl horizon)
      hbudget).shows floor hlow

/-! ## Patterns -/

/-- A cursor shows whatever is seen of the ways of its pattern. -/
theorem Pattern.Scopeless.shown {pattern : Pattern τ ν} (scopeless : pattern.Scopeless)
    (horizon : Nat) (sequence : Array τ) : pattern.Shown horizon sequence := by
  induction scopeless with
  | token scopeless capture =>
    intro start floor low fresh hlow
    rw [Pattern.glimpse]
    exact Shows.token sequence floor low scopeless capture start hlow
  | span lengths capture =>
    intro start floor low fresh hlow
    rw [Pattern.glimpse]
    exact Shows.span sequence floor low capture start lengths none [] fresh hlow floor.closes_none
  | atEnd =>
    intro start floor low fresh _
    rw [Pattern.glimpse]
    exact Shows.atEnd sequence floor low start fresh
  | lookahead _ hidden hinner => exact hinner.lookahead hidden
  | choice _ hbranches => exact Shown.choice hbranches
  | chain _ hparts => exact Shown.chain hparts
  | repeated _ min max step hinner => exact hinner.repeated min max step
  | weighted run =>
    intro start floor low fresh hlow
    rw [Pattern.glimpse]
    exact Shows.weighted sequence floor low run _ start 0 none [] fresh rfl hlow floor.closes_none

end StackCode
