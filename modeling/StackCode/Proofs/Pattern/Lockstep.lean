import StackCode.Proofs.Pattern.Fuel
import StackCode.Proofs.Pattern.Observation

/-!
Cursors that advance in step.

All that a trail asks of an agenda is whether it is complete and which piece comes next.  Trails
with agendas that answer alike, now and behind every piece, open and close the same scopes, so that
no test can tell the one from the other, not even a test that looks at the scopes.  Choices with the
same first branch are in step until that branch is done.
-/

namespace StackCode

variable {τ ν : Type}

/-! ## Agendas -/

/-- No piece on either side, or the same piece and related agendas behind it. -/
inductive Agenda.NextAlike (Same : Agenda τ ν → Agenda τ ν → Prop) :
    Option (Pattern τ ν × Agenda τ ν) → Option (Pattern τ ν × Agenda τ ν) → Prop where
  | none : NextAlike Same none none
  | some (piece : Pattern τ ν) {rest other : Agenda τ ν} (h : Same rest other) :
    NextAlike Same (some (piece, rest)) (some (piece, other))

/-- Related agendas are complete together and offer the same piece, with related agendas behind
it. -/
def Agenda.OffersAlike (Same : Agenda τ ν → Agenda τ ν → Prop) : Prop :=
  ∀ agenda other, Same agenda other →
    agenda.isComplete = other.isComplete ∧ NextAlike Same agenda.next? other.next?

/-- The copies that are left of a fixed number, and a chain of that many. -/
inductive Agenda.WritesOut (inner : Pattern τ ν) : Agenda τ ν → Agenda τ ν → Prop where
  | left {count most : Nat} (hle : count ≤ most) (step : Nat) :
    WritesOut inner (.copies inner count most (some most) step)
      (.parts (List.replicate (most - count) inner))

theorem Agenda.WritesOut.offersAlike (inner : Pattern τ ν) :
    Agenda.OffersAlike (WritesOut inner) := by
  intro agenda other h
  cases h with
  | @left count most hle step =>
    rcases Nat.eq_or_lt_of_le hle with rfl | hlt
    · have hnone : (copies inner count count (some count) step).next? = none := by simp [next?]
      rw [Nat.sub_self, hnone]
      exact ⟨by simp [isComplete], .none⟩
    · have hnext : (copies inner count most (some most) step).next? =
          some (inner, copies inner (count + 1) most (some most) step) := by simp [next?, hlt]
      have hmore : most - count = most - (count + 1) + 1 := by omega
      have hfew : ¬ most ≤ count := Nat.not_le.mpr hlt
      rw [hnext, hmore, List.replicate_succ]
      exact ⟨by simp [isComplete, hfew], .some inner (.left hlt step)⟩

/-! ## Cursors -/

/-- The same cursors in the same scopes, each with a related agenda behind it. -/
inductive Cursor.PiecesAlike (Same : Agenda τ ν → Agenda τ ν → Prop) :
    (pieces others : List (Cursor τ ν × ScopeToken × Agenda τ ν)) → Prop where
  | nil : PiecesAlike Same [] []
  | cons (piece : Cursor τ ν) (scope : ScopeToken) {rest other : Agenda τ ν}
    {pieces others : List (Cursor τ ν × ScopeToken × Agenda τ ν)} (hrest : Same rest other)
    (hpieces : PiecesAlike Same pieces others) :
    PiecesAlike Same ((piece, scope, rest) :: pieces) ((piece, scope, other) :: others)

/-- The same cursor, or two trails of the same pieces with related agendas. -/
inductive Cursor.Alike (Same : Agenda τ ν → Agenda τ ν → Prop) :
    Cursor τ ν → Cursor τ ν → Prop where
  | same (cursor : Cursor τ ν) : Alike Same cursor cursor
  | pulled {pieces others : List (Cursor τ ν × ScopeToken × Agenda τ ν)}
    (hpieces : PiecesAlike Same pieces others) :
    Alike Same (.trail pieces none) (.trail others none)
  | arrived {pieces others : List (Cursor τ ν × ScopeToken × Agenda τ ν)}
    (hpieces : PiecesAlike Same pieces others) (position : Nat) {agenda other : Agenda τ ν}
    (hagenda : Same agenda other) (wasGiven : Bool) :
    Alike Same (.trail pieces (some (position, agenda, wasGiven)))
      (.trail others (some (position, other, wasGiven)))

/-- The same outcome, but for cursors behind a way that are only alike. -/
inductive Advance.Alike (Same : Agenda τ ν → Agenda τ ν → Prop) :
    Advance τ ν → Advance τ ν → Prop where
  | same (outcome : Advance τ ν) : Alike Same outcome outcome
  | way (stop : Nat) {cursor other : Cursor τ ν} (h : cursor.Alike Same other)
    (captures : Captures ν) : Alike Same (.way stop cursor captures) (.way stop other captures)

variable [Capturable τ ν] [DecidableEq τ] {Same : Agenda τ ν → Agenda τ ν → Prop}

section Trails

-- Trails advance others, with one unit of fuel less.
variable {sequence : Array τ} {fuel : Nat}
  {pieces others : List (Cursor τ ν × ScopeToken × Agenda τ ν)}
  (ih : ∀ {cursor other : Cursor τ ν}, cursor.Alike Same other → ∀ captures : Captures ν,
    (cursor.advance sequence fuel captures).Alike Same (other.advance sequence fuel captures))

include ih

theorem Cursor.PiecesAlike.arrive (hpieces : PiecesAlike Same pieces others)
    (hsame : Agenda.OffersAlike Same) {agenda other : Agenda τ ν} (hagenda : Same agenda other)
    (position : Nat) (wasGiven : Bool) (captures : Captures ν) :
    ((trail pieces (some (position, agenda, wasGiven))).advance sequence (fuel + 1)
        captures).Alike Same
      ((trail others (some (position, other, wasGiven))).advance sequence (fuel + 1)
        captures) := by
  obtain ⟨hcomplete, hnext⟩ := hsame agenda other hagenda
  rw [advance, advance, hcomplete]
  split
  · exact .way position (.arrived hpieces position hagenda true) captures
  · generalize agenda.next? = next at hnext ⊢
    generalize other.next? = later at hnext ⊢
    cases hnext with
    | none => exact ih (.pulled hpieces) captures
    | some piece hrest =>
      exact ih (.pulled (.cons (piece.cursor position) captures.enter.1 hrest hpieces))
        captures.enter.2

theorem Cursor.PiecesAlike.pull (hpieces : PiecesAlike Same pieces others)
    (captures : Captures ν) :
    ((trail pieces none).advance sequence (fuel + 1) captures).Alike Same
      ((trail others none).advance sequence (fuel + 1) captures) := by
  cases hpieces with
  | nil => exact .same _
  | cons piece scope hrest hpieces =>
    rw [advance, advance]
    -- The last piece is the same on both sides, and so is what comes of it.
    cases piece.advance sequence fuel captures with
    | way position next opened =>
      exact ih (.arrived (.cons next scope hrest hpieces) position hrest false) opened
    | done next left =>
      simp only
      cases left.exit scope with
      | ok closed => exact ih (.pulled hpieces) closed
      | error error => exact .same _
    | failed error left => exact .same _
    | outOfFuel => exact .same _

end Trails

/-- Cursors that are alike advance alike, whatever is tested. -/
theorem Cursor.Alike.advance (hsame : Agenda.OffersAlike Same) (sequence : Array τ) (fuel : Nat) :
    ∀ {cursor other : Cursor τ ν}, cursor.Alike Same other → ∀ captures : Captures ν,
      (cursor.advance sequence fuel captures).Alike Same
        (other.advance sequence fuel captures) := by
  induction fuel with
  | zero =>
    intro cursor other _ captures
    rw [Cursor.advance_zero, Cursor.advance_zero]
    exact .same _
  | succ fuel ih =>
    intro cursor other h captures
    cases h with
    | same => exact .same _
    | pulled hpieces => exact hpieces.pull ih captures
    | arrived hpieces position hagenda wasGiven =>
      exact hpieces.arrive ih hsame hagenda position wasGiven captures

/-- Nothing that is observed of their enumerations tells cursors apart that are alike. -/
theorem Cursor.Alike.observe_eq (hsame : Agenda.OffersAlike Same) (sequence : Array τ)
    (fuel limit : Nat) : ∀ {cursor other : Cursor τ ν}, cursor.Alike Same other →
      ∀ captures : Captures ν,
        Ending.observe (cursor.ways sequence fuel limit captures) =
          Ending.observe (other.ways sequence fuel limit captures) := by
  induction limit with
  | zero => exact fun _ _ => rfl
  | succ limit ih =>
    intro cursor other h captures
    have hadvance := h.advance hsame sequence fuel captures
    generalize houtcome : cursor.advance sequence fuel captures = outcome at hadvance
    generalize hfound : other.advance sequence fuel captures = found at hadvance
    cases hadvance with
    | same => rw [Cursor.ways, Cursor.ways, houtcome, hfound]
    | way stop hrest opened =>
      rw [observe_ways_succ houtcome, observe_ways_succ hfound, ih hrest opened]

/-- A fixed number of copies matches as a chain of that many does, whatever the tests look at. -/
theorem Pattern.fixed_sameWays (sequence : Array τ) (inner : Pattern τ ν) (count step : Nat) :
    SameWays sequence (.repeated inner count (some count) step)
      (.chain (List.replicate count inner)) := by
  have hcount : ¬ (some count).any (· < count) = true := by simp
  intro start captures limit
  have hcursor : (repeated inner count (some count) step).cursor start = .trail []
      (some (start, .copies inner 0 count (some count) (Nat.max step 1), false)) := by
    rw [cursor, if_neg hcount]
  have halike : Cursor.Alike (Agenda.WritesOut inner)
      ((repeated inner count (some count) step).cursor start)
      ((chain (List.replicate count inner)).cursor start) := by
    rw [hcursor]
    exact .arrived .nil start (.left (Nat.zero_le count) (Nat.max step 1)) false
  exact ⟨0, fun fuel _ =>
    halike.observe_eq (Agenda.WritesOut.offersAlike inner) sequence fuel limit captures⟩

/-! ## Choices -/

/-- With fuel enough, as many ways of the one cursor are observed to be as those of the other. -/
def Cursor.SameSight (sequence : Array τ) (limit : Nat) (cursor : Cursor τ ν)
    (captures : Captures ν) (other : Cursor τ ν) (others : Captures ν) : Prop :=
  ∃ need, ∀ fuel, need ≤ fuel →
    Ending.observe (cursor.ways sequence fuel limit captures) =
      Ending.observe (other.ways sequence fuel limit others)

namespace Cursor.SameSight

variable {sequence : Array τ} {limit : Nat} {cursor next other : Cursor τ ν}
  {captures later others : Captures ν}

theorem symm (h : SameSight sequence limit cursor captures next later) :
    SameSight sequence limit next later cursor captures := by
  obtain ⟨need, h⟩ := h
  exact ⟨need, fun fuel hfuel => (h fuel hfuel).symm⟩

theorem trans (h : SameSight sequence limit cursor captures next later)
    (hnext : SameSight sequence limit next later other others) :
    SameSight sequence limit cursor captures other others := by
  obtain ⟨need, h⟩ := h
  obtain ⟨enough, hnext⟩ := hnext
  exact ⟨max need enough, fun fuel hfuel =>
    (h fuel (by omega)).trans (hnext fuel (by omega))⟩

theorem of_advance_eq (need : Nat) (h : ∀ fuel, need ≤ fuel →
    cursor.advance sequence (fuel + 1) captures = other.advance sequence (fuel + 1) others) :
    SameSight sequence limit cursor captures other others := by
  cases limit with
  | zero => exact ⟨0, fun _ _ => rfl⟩
  | succ limit =>
    refine ⟨need + 1, fun fuel hfuel => ?_⟩
    obtain ⟨fuel, rfl⟩ : ∃ less, fuel = less + 1 := ⟨fuel - 1, by omega⟩
    rw [Cursor.ways, Cursor.ways, h fuel (by omega)]

/-- A cursor that goes on as another one is observed to be that one. -/
theorem of_goesOn (need : Nat) (h : ∀ fuel, need ≤ fuel →
    cursor.advance sequence (fuel + 1) captures = next.advance sequence fuel later) :
    SameSight sequence limit cursor captures next later := by
  -- The second advance has a unit of fuel more, which changes nothing if there is enough.
  have hsteady : ∃ enough, ∀ fuel, enough ≤ fuel →
      next.advance sequence fuel later = next.advance sequence (fuel + 1) later := by
    rcases next.starves_or_reaches sequence later with hstarves | ⟨outcome, -, enough, hreaches⟩
    · exact ⟨0, fun fuel _ => (hstarves fuel).trans (hstarves (fuel + 1)).symm⟩
    · exact ⟨enough, fun fuel hfuel =>
        (hreaches fuel hfuel).trans (hreaches (fuel + 1) (by omega)).symm⟩
  obtain ⟨enough, hsteady⟩ := hsteady
  refine of_advance_eq (max need enough) fun fuel hfuel => ?_
  exact (h fuel (by omega)).trans (hsteady fuel (by omega))

theorem of_way {stop : Nat} {after : Cursor τ ν} {opened : Captures ν}
    (h : Reaches sequence cursor captures (.way stop next opened))
    (hother : Reaches sequence other others (.way stop after opened))
    (hrest : SameSight sequence limit next opened after opened) :
    SameSight sequence (limit + 1) cursor captures other others := by
  obtain ⟨need, h⟩ := h
  obtain ⟨enough, hother⟩ := hother
  obtain ⟨far, hrest⟩ := hrest
  refine ⟨max (max need enough) far, fun fuel hfuel => ?_⟩
  rw [observe_ways_succ (h fuel (by omega)), observe_ways_succ (hother fuel (by omega)),
    hrest fuel (by omega)]

end Cursor.SameSight

section Choices

variable {sequence : Array τ} {rest others : List (Pattern τ ν)}

theorem Cursor.choice_sameSight
    (h : Pattern.SameWays sequence (.choice rest) (.choice others)) (scope : ScopeToken)
    (start : Nat) (limit : Nat) : ∀ (branch : Cursor τ ν) (captures : Captures ν),
      SameSight sequence limit (.choice (some (branch, scope)) rest start) captures
        (.choice (some (branch, scope)) others start) captures := by
  induction limit with
  | zero => exact fun _ _ => ⟨0, fun _ _ => rfl⟩
  | succ limit ih =>
    intro branch captures
    rcases branch.starves_or_reaches sequence captures with
      hstarves | ⟨outcome, hne, need, hreaches⟩
    · refine .of_advance_eq 0 fun fuel _ => ?_
      rw [advance, advance, hstarves]
    · cases outcome with
      | way stop next opened =>
        have hway : ∀ branches, Reaches sequence (.choice (some (branch, scope)) branches start)
            captures (.way stop (.choice (some (next, scope)) branches start) opened) := by
          intro branches
          refine ⟨need + 1, fun fuel hfuel => ?_⟩
          obtain ⟨fuel, rfl⟩ : ∃ less, fuel = less + 1 := ⟨fuel - 1, by omega⟩
          rw [advance, hreaches fuel (by omega)]
        exact .of_way (hway rest) (hway others) (ih next opened)
      | done next left =>
        cases hexit : left.exit scope with
        | ok closed =>
          -- The branch is done: what is left are the choices that match in the same ways.
          have hleft : ∀ branches, SameSight sequence (limit + 1)
              (.choice (some (branch, scope)) branches start) captures
              ((Pattern.choice branches).cursor start) closed := by
            intro branches
            refine .of_goesOn need fun fuel hfuel => ?_
            rw [advance, hreaches fuel hfuel]
            simp only [hexit]
            rfl
          have hsame : SameSight sequence (limit + 1) ((Pattern.choice rest).cursor start) closed
              ((Pattern.choice others).cursor start) closed := h start closed (limit + 1)
          exact ((hleft rest).trans hsame).trans (hleft others).symm
        | error error =>
          refine .of_advance_eq need fun fuel hfuel => ?_
          rw [advance, advance, hreaches fuel hfuel]
          simp only [hexit]
      | failed error left =>
        refine .of_advance_eq need fun fuel hfuel => ?_
        rw [advance, advance, hreaches fuel hfuel]
      | outOfFuel => exact absurd rfl hne

/-- Choices between a pattern and others that match in the same ways match in the same ways,
whatever the first pattern tests. -/
theorem Pattern.SameWays.choice_cons (h : SameWays sequence (.choice rest) (.choice others))
    (branch : Pattern τ ν) :
    SameWays sequence (.choice (branch :: rest)) (.choice (branch :: others)) := by
  intro start captures limit
  have hfirst : ∀ branches, Cursor.SameSight sequence limit
      ((choice (branch :: branches)).cursor start) captures
      (.choice (some (branch.cursor start, captures.enter.1)) branches start)
      captures.enter.2 := by
    intro branches
    refine .of_goesOn 0 fun fuel _ => ?_
    rw [cursor, Cursor.advance]
  have hbranch := Cursor.choice_sameSight h captures.enter.1 start limit (branch.cursor start)
    captures.enter.2
  exact ((hfirst rest).trans hbranch).trans (hfirst others).symm

end Choices

end StackCode
