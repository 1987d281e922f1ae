import StackCode.Proofs.Pattern.Shows

/-!
More fuel than enough.

Fuel is only spent on advances of other cursors.  An advance that comes to an outcome comes to the
same one with more fuel, so that every advance either has one outcome for all fuel that is enough,
or none is enough.
-/

namespace StackCode

variable {τ ν : Type} [Capturable τ ν] [DecidableEq τ]

section Monotone

-- Advances of other cursors, with one unit of fuel less, stay as they are with more.
variable {sequence : Array τ} {fuel more : Nat}
  (ih : ∀ {cursor : Cursor τ ν} {captures : Captures ν},
    cursor.advance sequence fuel captures ≠ .outOfFuel →
      cursor.advance sequence (fuel + more) captures = cursor.advance sequence fuel captures)

include ih

theorem Cursor.advance_lookahead_mono {inner : Pattern τ ν} {hidden : Bool} {start : Nat}
    {captures : Captures ν}
    (hne : (lookahead inner hidden start).advance sequence (fuel + 1) captures ≠ .outOfFuel) :
    (lookahead inner hidden start).advance sequence (fuel + more + 1) captures =
      (lookahead inner hidden start).advance sequence (fuel + 1) captures := by
  rw [advance] at hne
  rw [advance, advance]
  generalize captures.enter = entry at hne ⊢
  obtain ⟨scope, entered⟩ := entry
  have hinner : (inner.cursor start).advance sequence fuel entered ≠ .outOfFuel := by
    intro hstarved
    simp only [hstarved] at hne
    exact hne rfl
  simp only [ih hinner]

theorem Cursor.advance_choice_mono {current : Option (Cursor τ ν × ScopeToken)}
    {rest : List (Pattern τ ν)} {start : Nat} {captures : Captures ν}
    (hne : (choice current rest start).advance sequence (fuel + 1) captures ≠ .outOfFuel) :
    (choice current rest start).advance sequence (fuel + more + 1) captures =
      (choice current rest start).advance sequence (fuel + 1) captures := by
  cases current with
  | some current =>
    obtain ⟨current, scope⟩ := current
    rw [advance] at hne
    rw [advance, advance]
    have hcurrent : current.advance sequence fuel captures ≠ .outOfFuel := by
      intro hstarved
      rw [hstarved] at hne
      exact hne rfl
    rw [ih hcurrent]
    cases hadvance : current.advance sequence fuel captures with
    | done next left =>
      rw [hadvance] at hne
      cases hexit : left.exit scope with
      | ok closed =>
        simp only [hexit] at hne ⊢
        exact ih hne
      | error error => simp only [hexit]
    | _ => rfl
  | none =>
    cases rest with
    | nil => rw [advance, advance]
    | cons branch rest =>
      rw [advance] at hne
      rw [advance, advance]
      exact ih hne

theorem Cursor.advance_arrival_mono {pieces : List (Cursor τ ν × ScopeToken × Agenda τ ν)}
    {arrival : Nat × Agenda τ ν × Bool} {captures : Captures ν}
    (hne : (trail pieces (some arrival)).advance sequence (fuel + 1) captures ≠ .outOfFuel) :
    (trail pieces (some arrival)).advance sequence (fuel + more + 1) captures =
      (trail pieces (some arrival)).advance sequence (fuel + 1) captures := by
  obtain ⟨position, agenda, wasGiven⟩ := arrival
  rw [advance] at hne
  rw [advance, advance]
  split at hne
  · rename_i hgiven
    rw [if_pos hgiven, if_pos hgiven]
  · rename_i hnot
    rw [if_neg hnot, if_neg hnot]
    cases hnext : agenda.next? with
    | none =>
      rw [hnext] at hne
      exact ih hne
    | some next =>
      obtain ⟨piece, rest⟩ := next
      rw [hnext] at hne
      exact ih hne

theorem Cursor.advance_pieces_mono {pieces : List (Cursor τ ν × ScopeToken × Agenda τ ν)}
    {captures : Captures ν}
    (hne : (trail pieces none).advance sequence (fuel + 1) captures ≠ .outOfFuel) :
    (trail pieces none).advance sequence (fuel + more + 1) captures =
      (trail pieces none).advance sequence (fuel + 1) captures := by
  cases pieces with
  | nil => rw [advance, advance]
  | cons piece pieces =>
    obtain ⟨piece, scope, rest⟩ := piece
    rw [advance] at hne
    rw [advance, advance]
    have hpiece : piece.advance sequence fuel captures ≠ .outOfFuel := by
      intro hstarved
      rw [hstarved] at hne
      exact hne rfl
    rw [ih hpiece]
    cases hadvance : piece.advance sequence fuel captures with
    | way position next opened =>
      rw [hadvance] at hne
      exact ih hne
    | done next left =>
      rw [hadvance] at hne
      cases hexit : left.exit scope with
      | ok closed =>
        simp only [hexit] at hne ⊢
        exact ih hne
      | error error => simp only [hexit]
    | _ => rfl

theorem Cursor.advance_weighted_mono {run : WeightedRun τ ν} {position : Nat} {total : Int}
    {scope : Option ScopeToken} {captures : Captures ν}
    (hne : (weighted run position total scope).advance sequence (fuel + 1) captures ≠
      .outOfFuel) :
    (weighted run position total scope).advance sequence (fuel + more + 1) captures =
      (weighted run position total scope).advance sequence (fuel + 1) captures := by
  rw [advance] at hne
  rw [advance, advance]
  cases hclosed : captures.exitIf scope with
  | error error => rfl
  | ok closed =>
    cases hitem : sequence[position]? with
    | none => rfl
    | some item =>
      cases hweight : run.weight item with
      | error error => simp only [hweight]
      | ok weight =>
        simp only [hclosed, hitem, hweight] at hne ⊢
        split at hne
        · rename_i haccepts
          rw [if_pos haccepts, if_pos haccepts]
        · rename_i hrejects
          rw [if_neg hrejects, if_neg hrejects]
          exact ih hne

end Monotone

/-- An advance that comes to an outcome comes to the same one with more fuel. -/
theorem Cursor.advance_mono {sequence : Array τ} (more : Nat) : ∀ {fuel : Nat}
    {cursor : Cursor τ ν} {captures : Captures ν},
    cursor.advance sequence fuel captures ≠ .outOfFuel →
      cursor.advance sequence (fuel + more) captures = cursor.advance sequence fuel captures := by
  intro fuel
  induction fuel with
  | zero =>
    intro cursor captures hne
    exact absurd (advance_zero sequence cursor captures) hne
  | succ fuel ih =>
    intro cursor captures hne
    rw [Nat.add_right_comm]
    cases cursor with
    | lookahead inner hidden start => exact advance_lookahead_mono ih hne
    | choice current rest start => exact advance_choice_mono ih hne
    | trail pieces arrival =>
      cases arrival with
      | some arrival => exact advance_arrival_mono ih hne
      | none => exact advance_pieces_mono ih hne
    | weighted run position total scope => exact advance_weighted_mono ih hne
    | _ => rw [advance, advance]

/-- No fuel is enough for an advance, or it has an outcome. -/
theorem Cursor.starves_or_reaches (sequence : Array τ) (cursor : Cursor τ ν)
    (captures : Captures ν) :
    (∀ fuel, cursor.advance sequence fuel captures = .outOfFuel) ∨
      ∃ outcome, outcome ≠ .outOfFuel ∧ Reaches sequence cursor captures outcome := by
  by_cases hstarves : ∀ fuel, cursor.advance sequence fuel captures = .outOfFuel
  · exact .inl hstarves
  · obtain ⟨need, hne⟩ := Classical.not_forall.mp hstarves
    refine .inr ⟨cursor.advance sequence need captures, hne, need, fun fuel hfuel => ?_⟩
    obtain ⟨more, rfl⟩ := Nat.exists_eq_add_of_le hfuel
    exact advance_mono more hne

end StackCode
