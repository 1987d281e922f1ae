import StackCode.Pattern.Matcher
import StackCode.Proofs.Pattern.Advances

/-!
Matches lie inside the sequence.  A cursor only ever goes on from places that it has reached, so
that no way ends in front of its start, or behind the end of the sequence.
-/

namespace StackCode

variable {τ ν : Type}

mutual

/-- The cursor goes on from places between `low` and `high`. -/
def Cursor.Within (low high : Nat) : Cursor τ ν → Prop
  | .spent => True
  | .given _ => True
  | .peeked _ => True
  | .token _ _ start => low ≤ start
  | .span _ _ start _ => low ≤ start
  | .atEnd start => low ≤ start ∧ start ≤ high
  | .lookahead _ _ start => low ≤ start ∧ start ≤ high
  | .choice none _ start => low ≤ start ∧ start ≤ high
  | .choice (some (current, _)) _ start => current.Within low high ∧ low ≤ start ∧ start ≤ high
  | .trail pieces arrival =>
    Cursor.AllWithin low high pieces ∧ ∀ place ∈ arrival, low ≤ place.1 ∧ place.1 ≤ high
  | .weighted _ position _ _ => low ≤ position

def Cursor.AllWithin (low high : Nat) : List (Cursor τ ν × ScopeToken × Agenda τ ν) → Prop
  | [] => True
  | (piece, _) :: pieces => piece.Within low high ∧ Cursor.AllWithin low high pieces

end

theorem Pattern.within_cursor (pattern : Pattern τ ν) {low high start : Nat} (hlow : low ≤ start)
    (hhigh : start ≤ high) : (pattern.cursor start).Within low high := by
  cases pattern with
  | repeated inner min max step =>
    rw [cursor]
    split
    · trivial
    · rw [Cursor.Within, Cursor.AllWithin]
      refine ⟨trivial, fun place hplace => ?_⟩
      cases hplace
      exact ⟨hlow, hhigh⟩
  | chain parts =>
    rw [cursor, Cursor.Within, Cursor.AllWithin]
    refine ⟨trivial, fun place hplace => ?_⟩
    cases hplace
    exact ⟨hlow, hhigh⟩
  | token => exact hlow
  | span => exact hlow
  | atEnd => exact ⟨hlow, hhigh⟩
  | lookahead => exact ⟨hlow, hhigh⟩
  | choice => exact ⟨hlow, hhigh⟩
  | weighted => exact hlow

/-- A way ends between `low` and `high`, and so do the ways behind it. -/
def Advance.Within (low high : Nat) : Advance τ ν → Prop
  | .way stop cursor _ => (low ≤ stop ∧ stop ≤ high) ∧ cursor.Within low high
  | .done _ _ => True
  | .failed _ _ => True
  | .outOfFuel => True

variable [Capturable τ ν] [DecidableEq τ]

theorem Advances.within {sequence : Array τ} {cursor : Cursor τ ν} {captures : Captures ν}
    {outcome : Advance τ ν} (h : Advances sequence cursor captures outcome) {low : Nat}
    (hcursor : cursor.Within low sequence.size) : outcome.Within low sequence.size := by
  induction h with
  | starved | spent | given | givenStuck | peeked | tokenPast => trivial
  | @tokenWay _ _ start _ _ _ hitem hrun =>
    obtain ⟨hlt, -⟩ := Array.getElem?_eq_some_iff.mp hitem
    have hlow : low ≤ start := hcursor
    exact ⟨⟨by omega, hlt⟩, trivial⟩
  | tokenRejected | tokenFailed | spanStuck | spanDone => trivial
  | @spanWay lengths rest length _ start _ _ _ hexit hfits =>
    have hlow : low ≤ start := hcursor
    have hshort := List.head?_dropWhile_not (fun length => decide (sequence.size < start + length))
      lengths
    rw [hfits] at hshort
    have hshort : start + length ≤ sequence.size := by simpa using hshort
    exact ⟨⟨by omega, hshort⟩, hcursor⟩
  | inside => trivial
  | atEnd | hidden | shown => exact ⟨hcursor, trivial⟩
  | absent | absentStuck | lookaheadFailed => trivial
  | branchWay _ ih =>
    obtain ⟨hcurrent, hstart⟩ := hcursor
    obtain ⟨hstop, hnext⟩ := ih hcurrent
    exact ⟨hstop, hnext, hstart⟩
  | branchDone _ _ _ _ ih => exact ih hcursor.2
  | branchStuck | branchFailed | noBranch => trivial
  | branch _ ih => exact ih ⟨Pattern.within_cursor _ hcursor.1 hcursor.2, hcursor⟩
  | complete =>
    have harrival := hcursor.2 _ rfl
    refine ⟨harrival, hcursor.1, fun place hplace => ?_⟩
    cases hplace
    exact harrival
  | back _ _ _ ih => exact ih ⟨hcursor.1, fun _ hplace => nomatch hplace⟩
  | extend _ _ _ ih =>
    obtain ⟨hpieces, harrival⟩ := hcursor
    obtain ⟨hlow, hhigh⟩ := harrival _ rfl
    exact ih ⟨⟨Pattern.within_cursor _ hlow hhigh, hpieces⟩, fun _ hplace => nomatch hplace⟩
  | noPiece => trivial
  | pieceWay _ _ ih iharrive =>
    obtain ⟨⟨hpiece, hpieces⟩, -⟩ := hcursor
    obtain ⟨hstop, hnext⟩ := ih hpiece
    refine iharrive ⟨⟨hnext, hpieces⟩, fun place hplace => ?_⟩
    cases hplace
    exact hstop
  | pieceDone _ _ _ _ ih => exact ih ⟨hcursor.1.2, fun _ hplace => nomatch hplace⟩
  | pieceStuck | pieceFailed | weightedStuck | weightedPast | weightedFailed => trivial
  | @weightedWay _ position _ _ _ _ _ _ _ hitem =>
    obtain ⟨hlt, -⟩ := Array.getElem?_eq_some_iff.mp hitem
    have hlow : low ≤ position := hcursor
    exact ⟨⟨by omega, hlt⟩, Nat.le_succ_of_le hlow⟩
  | weightedOn _ _ _ _ _ ih => exact ih (Nat.le_succ_of_le hcursor)

/-! ## Matches -/

/-- The match covers tokens from `start` on. -/
structure Match.Covers (sequence : Array τ) (start : Nat) (found : Match ν) : Prop where
  start : found.start = start
  le : found.start ≤ found.stop
  stop_le : found.stop ≤ sequence.size

namespace Matcher

variable {sequence : Array τ}

theorem firstWay_covers {start : Nat} {accepts : Nat → Bool} {found : Match ν} :
    ∀ {fuel : Nat} {cursor : Cursor τ ν} {captures : Captures ν},
      firstWay sequence start accepts fuel cursor captures = .ok (some found) →
      cursor.Within start sequence.size → found.Covers sequence start := by
  intro fuel
  induction fuel with
  | zero =>
    intro cursor captures h _
    cases h
  | succ fuel ih =>
    intro cursor captures h hcursor
    have hwithin := (Cursor.advances sequence fuel cursor captures).within hcursor
    rw [firstWay] at h
    cases hadvance : cursor.advance sequence fuel captures with
    | way stop next opened =>
      rw [hadvance] at h hwithin
      obtain ⟨⟨hlow, hhigh⟩, hnext⟩ := hwithin
      simp only at h
      split at h
      · cases h
        exact ⟨rfl, hlow, hhigh⟩
      · exact ih h hnext
    | done next left =>
      rw [hadvance] at h
      cases h
    | failed error left =>
      rw [hadvance] at h
      cases h
    | outOfFuel =>
      rw [hadvance] at h
      cases h

theorem longestWay_covers {start : Nat} {found : Match ν} :
    ∀ {fuel : Nat} {best : Option (Match ν)} {cursor : Cursor τ ν} {captures : Captures ν},
      longestWay sequence start best fuel cursor captures = .ok (some found) →
      (∀ found ∈ best, found.Covers sequence start) → cursor.Within start sequence.size →
      found.Covers sequence start := by
  intro fuel
  induction fuel with
  | zero =>
    intro best cursor captures h _ _
    cases h
  | succ fuel ih =>
    intro best cursor captures h hbest hcursor
    have hwithin := (Cursor.advances sequence fuel cursor captures).within hcursor
    rw [longestWay] at h
    cases hadvance : cursor.advance sequence fuel captures with
    | way stop next opened =>
      rw [hadvance] at h hwithin
      obtain ⟨⟨hlow, hhigh⟩, hnext⟩ := hwithin
      refine ih h (fun found hfound => ?_) hnext
      split at hfound
      · exact hbest found hfound
      · cases hfound
        exact ⟨rfl, hlow, hhigh⟩
    | done next left =>
      rw [hadvance] at h
      cases h
      exact hbest found rfl
    | failed error left =>
      rw [hadvance] at h
      cases h
    | outOfFuel =>
      rw [hadvance] at h
      cases h

variable {matcher : Matcher τ ν} {fuel : Nat} {found : Match ν}

theorem matchAt_covers {start : Nat} (h : matcher.matchAt fuel sequence start = .ok (some found))
    (hstart : start ≤ sequence.size) : found.Covers sequence start := by
  have hcursor := matcher.pattern.within_cursor (Nat.le_refl start) hstart
  rw [matchAt] at h
  split at h
  · exact firstWay_covers h hcursor
  · exact longestWay_covers h (fun _ hnone => nomatch hnone) hcursor

theorem searchIn_covers :
    ∀ {count start : Nat}, matcher.searchIn fuel sequence count start = .ok (some found) →
      start + count ≤ sequence.size →
      start ≤ found.start ∧ found.start < start + count ∧
        found.Covers sequence found.start := by
  intro count
  induction count with
  | zero =>
    intro start h _
    cases h
  | succ count ih =>
    intro start h hsize
    rw [searchIn] at h
    split at h
    · obtain ⟨hlow, hhigh, hcovers⟩ := ih h (by omega)
      exact ⟨by omega, by omega, hcovers⟩
    · have hcovers := matchAt_covers h (by omega)
      rw [hcovers.start]
      exact ⟨Nat.le_refl _, by omega, hcovers⟩

/-- A search finds a match at or behind its start, inside the sequence. -/
theorem searchFrom_covers {start : Nat}
    (h : matcher.searchFrom fuel sequence start = .ok (some found)) :
    start ≤ found.start ∧ found.start < sequence.size ∧
      found.Covers sequence found.start := by
  rcases Nat.lt_or_ge start sequence.size with hlt | hge
  · obtain ⟨hlow, hhigh, hcovers⟩ := searchIn_covers h (by omega)
    exact ⟨hlow, by omega, hcovers⟩
  · rw [searchFrom, Nat.sub_eq_zero_of_le hge] at h
    cases h

theorem searchIn_first {answer : Option (Match ν)} :
    ∀ {count start : Nat}, matcher.searchIn fuel sequence count start = .ok answer →
      start + count ≤ sequence.size →
      (∀ place, start ≤ place → place < answer.elim (start + count) (·.start) →
        matcher.matchAt fuel sequence place = .ok none) ∧
      ∀ found ∈ answer, matcher.matchAt fuel sequence found.start = .ok (some found) := by
  intro count
  induction count with
  | zero =>
    intro start h _
    cases h
    refine ⟨fun place hlow hhigh => ?_, fun _ hnone => nomatch hnone⟩
    rw [Option.elim_none] at hhigh
    omega
  | succ count ih =>
    intro start h hsize
    rw [searchIn] at h
    split at h
    · rename_i hnone
      have hcount : start + 1 + count = start + (count + 1) := by omega
      obtain ⟨hbefore, hfound⟩ := ih h (by omega)
      rw [hcount] at hbefore
      refine ⟨fun place hlow hhigh => ?_, hfound⟩
      rcases Nat.lt_or_eq_of_le hlow with hlt | rfl
      · exact hbefore place hlt hhigh
      · exact hnone
    · cases answer with
      | none => contradiction
      | some found =>
        have hstart := (matchAt_covers h (by omega)).start
        refine ⟨fun place hlow hhigh => ?_, fun other hother => ?_⟩
        · rw [Option.elim_some] at hhigh
          omega
        · cases hother
          rw [hstart]
          exact h

/-- No place in front of the one that a search comes to has a match. -/
theorem searchFrom_first {start : Nat} {answer : Option (Match ν)}
    (h : matcher.searchFrom fuel sequence start = .ok answer) :
    (∀ place, start ≤ place → place < answer.elim sequence.size (·.start) →
      matcher.matchAt fuel sequence place = .ok none) ∧
    ∀ found ∈ answer, matcher.matchAt fuel sequence found.start = .ok (some found) := by
  rcases Nat.lt_or_ge start sequence.size with hlt | hge
  · have hfirst := searchIn_first h (by omega)
    rwa [Nat.add_sub_cancel' (Nat.le_of_lt hlt)] at hfirst
  · rw [searchFrom, Nat.sub_eq_zero_of_le hge] at h
    cases h
    refine ⟨fun place hlow hhigh => ?_, fun _ hnone => nomatch hnone⟩
    rw [Option.elim_none] at hhigh
    omega

/-- A search does not come to its start if it finds something behind, and may start behind. -/
theorem searchFrom_succ {start : Nat} {answer : Option (Match ν)}
    (h : matcher.searchFrom fuel sequence start = .ok answer)
    (hbehind : ∀ found ∈ answer, found.start ≠ start) :
    matcher.searchFrom fuel sequence (start + 1) = .ok answer := by
  rcases Nat.lt_or_ge start sequence.size with hlt | hge
  · have hcount : sequence.size - start = sequence.size - (start + 1) + 1 := by omega
    rw [searchFrom, hcount, searchIn] at h
    split at h
    · exact h
    · cases answer with
      | none => contradiction
      | some found => exact absurd (matchAt_covers h (Nat.le_of_lt hlt)).start (hbehind found rfl)
  · rw [searchFrom, Nat.sub_eq_zero_of_le (by omega)] at h ⊢
    exact h

end Matcher
end StackCode
