import StackCode.Pattern.Enumeration
import StackCode.Proofs.Pattern.Trail

/-!
Cursors enumerate the ways of their patterns.

The ways come in the order of `Pattern.ways`, each with the bindings that are in sight there.  A
cursor without further ways leaves the store as it found it, except for the ids that it used up.
-/

namespace StackCode

variable {τ ν : Type}

/-- The end of an enumeration that gave all the ways: the error that stands behind them, or else
the store as it was, with nothing left to try. -/
def Ending.Completes (captures : Captures ν) (error? : Option Error) (ending : Ending τ ν) : Prop :=
  match error? with
  | none => ∃ fresh, captures.fresh ≤ fresh ∧
    ending = .done .spent { captures with fresh := fresh }
  | some error => ∃ left, ending = .failed error left

theorem Ending.Completes.mono {floor : Captures ν} {fresh last : Nat} {error? : Option Error}
    {ending : Ending τ ν} (h : ending.Completes (floor.atop [] last) error?) (hle : fresh ≤ last) :
    ending.Completes (floor.atop [] fresh) error? := by
  cases error? with
  | none =>
    obtain ⟨later, hlater, hending⟩ := h
    exact ⟨later, Nat.le_trans hle hlater, hending⟩
  | some error => exact h

variable [Capturable τ ν] [DecidableEq τ]

/-- Wherever it is put, a cursor on the pattern yields the ways of the pattern. -/
def Pattern.Enumerates (sequence : Array τ) (pattern : Pattern τ ν) : Prop :=
  ∀ start floor low fresh, low ≤ fresh →
    Yields sequence floor low (pattern.ways sequence start floor.snapshot) (pattern.cursor start)
      [] fresh

/-- A horizon behind the last token hides nothing. -/
theorem Pattern.Productive.enumerates {sequence : Array τ} {pattern : Pattern τ ν}
    (productive : pattern.Productive sequence) : pattern.Enumerates sequence := by
  intro start floor low fresh hlow
  have hshows := productive.scopeless.shown (sequence.size + 1) sequence start floor low fresh hlow
  rw [productive.glimpse_eq (Nat.lt_succ_self _)] at hshows
  exact hshows.of_le (Nat.zero_le _)

/-- An enumeration gives what a cursor yields, as far as its limit. -/
theorem Yields.enumeration {sequence : Array τ} {floor : Captures ν} {low : Nat} (ways : Ways ν) :
    ∀ (cursor : Cursor τ ν) (opened : List (Scope ν)) (fresh : Nat),
      Yields sequence floor low ways cursor opened fresh →
      ∃ need, ∀ fuel, need ≤ fuel → ∀ limit,
        (cursor.ways sequence fuel limit (floor.atop opened fresh)).1.map
            (fun way => (way.1, way.2.snapshot)) = ways.toList.take limit ∧
          (ways.toList.length < limit →
            (cursor.ways sequence fuel limit (floor.atop opened fresh)).2.Completes
              (floor.atop [] fresh) ways.error?) := by
  induction ways with
  | done =>
    intro cursor opened fresh hyields
    obtain ⟨last, need, hlast, htakes⟩ := hyields fresh (Nat.le_refl fresh)
    refine ⟨need, fun fuel hfuel limit => ?_⟩
    cases limit with
    | zero => exact ⟨rfl, fun h => absurd h (Nat.not_lt_zero _)⟩
    | succ limit =>
      rw [Cursor.ways, htakes.reaches fuel hfuel]
      exact ⟨rfl, fun _ => ⟨last, hlast, rfl⟩⟩
  | failed error =>
    intro cursor opened fresh hyields
    obtain ⟨left, need, htakes⟩ := hyields fresh (Nat.le_refl fresh)
    refine ⟨need, fun fuel hfuel limit => ?_⟩
    cases limit with
    | zero => exact ⟨rfl, fun h => absurd h (Nat.not_lt_zero _)⟩
    | succ limit =>
      rw [Cursor.ways, htakes.reaches fuel hfuel]
      exact ⟨rfl, fun _ => ⟨left, rfl⟩⟩
  | way stop env rest ih =>
    intro cursor opened fresh hyields
    obtain ⟨next, inner, last, need, hlast, htakes, _, henv, hrest⟩ :=
      hyields fresh (Nat.le_refl fresh)
    obtain ⟨enough, hothers⟩ := ih next inner last (hrest.of_le (Nat.zero_le _))
    refine ⟨max need enough, fun fuel hfuel limit => ?_⟩
    cases limit with
    | zero => exact ⟨rfl, fun h => absurd h (Nat.not_lt_zero _)⟩
    | succ limit =>
      obtain ⟨hgiven, hending⟩ := hothers fuel (by omega) limit
      rw [Cursor.ways, htakes.reaches fuel (by omega)]
      constructor
      · show (stop, (floor.atop inner last).snapshot) :: _ = (stop, env) :: rest.toList.take limit
        rw [henv, hgiven]
      · intro hlimit
        exact (hending (Nat.lt_of_succ_lt_succ hlimit)).mono hlast

/-- The ways that a cursor gives are those of its pattern in their order, each with the bindings in
sight at its end.  Once all are given the cursor is done, and the store is as it was before, or it
fails as the pattern does. -/
theorem Pattern.Productive.cursor_ways {sequence : Array τ} {pattern : Pattern τ ν}
    (productive : pattern.Productive sequence) (start : Nat) (captures : Captures ν) :
    ∃ need, ∀ fuel, need ≤ fuel → ∀ limit,
      ((pattern.cursor start).ways sequence fuel limit captures).1.map
          (fun way => (way.1, way.2.snapshot)) =
        (pattern.ways sequence start captures.snapshot).toList.take limit ∧
      ((pattern.ways sequence start captures.snapshot).toList.length < limit →
        ((pattern.cursor start).ways sequence fuel limit captures).2.Completes captures
          (pattern.ways sequence start captures.snapshot).error?) :=
  Yields.enumeration _ (pattern.cursor start) [] captures.fresh
    (productive.enumerates start captures captures.fresh captures.fresh (Nat.le_refl _))

/-- Tokens bound to a name one after the other, until one is the same as the next. -/
def doubled : Pattern Char (Captured Char) :=
  .chain [.repeated (.token (.oneOf ['a', 'b']) (some "x")) 1 none 1, .back "x"]

theorem doubled_productive : doubled.Productive #['b', 'a', 'a', 'b'] := by
  have hoptions : (TokenTest.oneOf ['a', 'b'] : TokenTest Char (Captured Char)).Scopeless := trivial
  have hback : (TokenTest.back "x" : TokenTest Char (Captured Char)).Scopeless := trivial
  apply Pattern.Productive.chain
  intro part hpart
  rcases List.mem_cons.mp hpart with rfl | hpart
  · exact .repeated (.token hoptions (some "x")) 1 (fun _ => Pattern.consumes_token _ _ _) 1
  · rw [List.mem_singleton.mp hpart]
    exact .token hback none

theorem doubled_cursor_ways : ∃ need, ∀ fuel, need ≤ fuel →
    ((doubled.cursor 0).ways #['b', 'a', 'a', 'b'] fuel 2 .empty).1.map
        (fun way => (way.1, way.2.snapshot)) = [(3, [("x", .token 'a')])] ∧
      ((doubled.cursor 0).ways #['b', 'a', 'a', 'b'] fuel 2 .empty).2.Completes .empty none := by
  obtain ⟨need, h⟩ := doubled_productive.cursor_ways 0 .empty
  have hways : (doubled.ways #['b', 'a', 'a', 'b'] 0 Captures.empty.snapshot) =
    .one 3 [("x", .token 'a')] := by rfl
  rw [hways] at h
  exact ⟨need, fun fuel hfuel => ⟨(h fuel hfuel 2).1, (h fuel hfuel 2).2 (by decide)⟩⟩

end StackCode
