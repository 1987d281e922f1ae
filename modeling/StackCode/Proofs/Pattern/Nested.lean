import StackCode.Proofs.Pattern.Shows

/-!
Cursors that are made of cursors.

A cursor on a part works above a scope that was opened for it, with the scopes of everything
before it on the floor.  What is given to the part is an argument of the lemmas: cursors on it
show what is seen of its ways, wherever they are put.
-/

namespace StackCode

variable {τ ν : Type} [Capturable τ ν] [DecidableEq τ]

/-- Wherever it is put, a cursor on the pattern shows what is seen of the ways of the pattern. -/
def Pattern.Shown (horizon : Nat) (sequence : Array τ) (pattern : Pattern τ ν) : Prop :=
  ∀ start floor low fresh, low ≤ fresh →
    Shows sequence floor low horizon (pattern.glimpse horizon sequence start floor.snapshot)
      (pattern.cursor start) [] fresh

variable {sequence : Array τ} {floor : Captures ν} {low horizon : Nat}

/-! ## Lookaheads -/

theorem Shows.peeked {id : Nat} {inner : List (Scope ν)}
    (hinner : ∀ scope ∈ inner, id < scope.id) (own : Bindings ν) (fresh : Nat) :
    Shows sequence floor low horizon .done (.peeked { id := id })
      (inner ++ [{ id := id, bindings := own }]) fresh := by
  intro later _
  refine ⟨later, 1, Nat.le_refl later, Takes.of_forall fun fuel => ?_⟩
  rw [Cursor.advance, floor.unwind_atop hinner own [] later]

theorem Pattern.Shown.lookahead {inner : Pattern τ ν} (hinner : inner.Shown horizon sequence)
    (hidden : Bool) : (Pattern.lookahead inner hidden).Shown horizon sequence := by
  intro start floor low fresh hlow
  have henter : ∀ later, Shows sequence
      (floor.atop [{ id := later, bindings := [] }] (later + 1)) (later + 1) horizon
      (inner.glimpse horizon sequence start floor.snapshot) (inner.cursor start) [] (later + 1) :=
    fun later => hinner start _ (later + 1) (later + 1) (Nat.le_refl _)
  have hstarve : ∀ later fuel, (inner.cursor start).advance sequence fuel
        (floor.atop [{ id := later, bindings := [] }] (later + 1)) = .outOfFuel →
      (Cursor.lookahead inner hidden start).advance sequence (fuel + 1) (floor.atop [] later) =
        .outOfFuel := by
    intro later fuel h
    simp only [Cursor.advance, Captures.enter_atop, h]
  show Shows sequence floor low horizon _ (.lookahead inner hidden start) [] fresh
  rw [Pattern.glimpse]
  cases hglimpse : inner.glimpse horizon sequence start floor.snapshot with
  | cut =>
    rw [hglimpse] at henter
    exact Shows.cut_of_part fun later _ fuel hfuel =>
      hstarve later fuel (henter later (later + 1) (Nat.le_refl _) fuel hfuel)
  | done =>
    intro later _
    rw [hglimpse] at henter
    obtain ⟨last, need, hlast, htakes⟩ := henter later (later + 1) (Nat.le_refl _)
    simp only [Captures.atop_atop, List.nil_append] at htakes
    refine ⟨last, need + 1, by omega, Takes.of_part htakes (hstarve later) fun fuel hfound => ?_⟩
    simp only [Cursor.advance, Captures.enter_atop, hfound, Captures.exit_atop]
  | failed error =>
    intro later _
    rw [hglimpse] at henter
    obtain ⟨left, need, htakes⟩ := henter later (later + 1) (Nat.le_refl _)
    simp only [Captures.atop_atop, List.nil_append] at htakes
    refine ⟨left.unwind { id := later }, need + 1,
      Takes.of_part htakes (hstarve later) fun fuel hfound => ?_⟩
    simp only [Cursor.advance, Captures.enter_atop, hfound]
  | way stop env rest =>
    intro later hlater
    rw [hglimpse] at henter
    obtain ⟨next, opened, last, need, hlast, htakes, hopened, henv, _⟩ :=
      henter later (later + 1) (Nat.le_refl _)
    simp only [Captures.atop_atop, List.nil_append] at htakes henv
    have hunwind := floor.unwind_atop hopened [] [] last
    cases hidden with
    | true =>
      refine ⟨.spent, [], last, need + 1, by omega,
        Takes.of_part htakes (hstarve later) fun fuel hfound => ?_,
        fun _ hscope => absurd hscope List.not_mem_nil, rfl, Shows.spent sequence floor low last⟩
      simp only [Cursor.advance, Captures.enter_atop, hfound, hunwind, if_true]
    | false =>
      refine ⟨.peeked { id := later }, opened ++ [{ id := later, bindings := [] }], last, need + 1,
        by omega, Takes.of_part htakes (hstarve later) fun fuel hfound => ?_,
        Captures.low_of_append ?_ (by omega) [] (fun _ hscope => absurd hscope List.not_mem_nil),
        henv, Shows.peeked hopened [] last⟩
      · simp only [Cursor.advance, Captures.enter_atop, hfound]
        rfl
      · intro scope hscope
        have hid : later + 1 ≤ scope.id := hopened scope hscope
        omega

/-! ## Choices -/

/-- The branch that is tried shows its ways, and then it is the turn of the branches behind. -/
theorem Shows.branch {others : Glimpse ν} {branches : List (Pattern τ ν)} {start fresh id : Nat}
    (hid : low ≤ id) (glimpse : Glimpse ν) :
    ∀ (horizon : Nat) (current : Cursor τ ν) (inner : List (Scope ν)) (middle : Nat),
      Shows sequence floor low horizon others (.choice none branches start) [] fresh →
      fresh ≤ middle →
      Shows sequence (floor.atop [{ id := id, bindings := [] }] fresh) low horizon glimpse current
        inner middle →
      Shows sequence floor low horizon (glimpse ++ others)
        (.choice (some (current, { id := id })) branches start)
        (inner ++ [{ id := id, bindings := [] }]) middle := by
  have hstarve : ∀ (current : Cursor τ ν) captures fuel,
      current.advance sequence fuel captures = .outOfFuel →
      (Cursor.choice (some (current, { id := id })) branches start).advance sequence (fuel + 1)
        captures = .outOfFuel := by
    intro current captures fuel h
    simp only [Cursor.advance, h]
  induction glimpse with
  | cut =>
    intro horizon current inner middle _ _ hcurrent
    refine Shows.cut_of_part fun later hlater fuel hfuel => hstarve current _ fuel ?_
    have hcut := hcurrent later hlater fuel hfuel
    rwa [Captures.atop_atop] at hcut
  | done =>
    intro horizon current inner middle hothers hmiddle hcurrent
    apply Shows.of_leads
    intro later hlater
    obtain ⟨last, need, hlast, htakes⟩ := hcurrent later hlater
    simp only [Captures.atop_atop, List.nil_append] at htakes
    refine ⟨_, [], last, need, hlast,
      Leads.of_part htakes (hstarve current _) fun fuel hfound => ?_,
      (hothers.mono (by omega)).of_le (Nat.sub_le _ _)⟩
    simp only [Cursor.advance, hfound, Captures.exit_atop]
  | failed error =>
    intro horizon current inner middle _ hmiddle hcurrent later hlater
    obtain ⟨left, need, htakes⟩ := hcurrent later hlater
    rw [Captures.atop_atop] at htakes
    refine ⟨left, need + 1, Takes.of_part htakes (hstarve current _) fun fuel hfound => ?_⟩
    simp only [Cursor.advance, hfound]
  | way stop env rest ih =>
    intro horizon current inner middle hothers hmiddle hcurrent later hlater
    obtain ⟨next, opened, last, need, hlast, htakes, hopened, henv, hrest⟩ :=
      hcurrent later hlater
    simp only [Captures.atop_atop] at htakes henv
    have hnearer : horizon - 2 ^ (need + 1) ≤ horizon - 2 ^ need :=
      Nat.sub_le_sub_left (Nat.pow_le_pow_right Nat.zero_lt_two (Nat.le_succ need)) horizon
    refine ⟨_, _, last, need + 1, hlast,
      Takes.of_part htakes (hstarve current _) fun fuel hfound => ?_,
      Captures.low_of_append hopened hid [] (fun _ hscope => absurd hscope List.not_mem_nil), henv,
      ih _ next opened last (hothers.of_le (Nat.sub_le _ _)) (by omega) (hrest.of_le hnearer)⟩
    simp only [Cursor.advance, hfound]

theorem Pattern.Shown.choice {branches : List (Pattern τ ν)}
    (hbranches : ∀ branch ∈ branches, branch.Shown horizon sequence) :
    (Pattern.choice branches).Shown horizon sequence := by
  intro start floor low fresh hlow
  show Shows sequence floor low horizon
    (Pattern.choiceGlimpse horizon sequence branches start floor.snapshot)
    (.choice none branches start) [] fresh
  induction branches generalizing fresh with
  | nil =>
    intro later _
    exact ⟨later, 1, Nat.le_refl later, Takes.of_forall fun fuel => rfl⟩
  | cons branch rest ih =>
    obtain ⟨hbranch, hbehind⟩ := List.forall_mem_cons.mp hbranches
    have hrest : ∀ fresh, low ≤ fresh → Shows sequence floor low horizon
        (Pattern.choiceGlimpse horizon sequence rest start floor.snapshot)
        (.choice none rest start) [] fresh := ih hbehind
    apply Shows.of_leads
    intro later hlater
    refine ⟨.choice (some (branch.cursor start, { id := later })) rest start,
      [{ id := later, bindings := [] }], later + 1, 0, Nat.le_succ later,
      Leads.of_forall fun fuel => ?_, ?_⟩
    · simp only [Cursor.advance, Captures.enter_atop]
    · apply Shows.of_le _ (Nat.sub_le _ _)
      exact Shows.branch (by omega) _ horizon (branch.cursor start) [] (later + 1)
        (hrest (later + 1) (by omega)) (Nat.le_refl _) (hbranch start _ low (later + 1) (by omega))

end StackCode
