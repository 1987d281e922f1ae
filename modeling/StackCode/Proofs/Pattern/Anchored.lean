import StackCode.Proofs.Pattern.Composition
import StackCode.Proofs.Pattern.Emissions

/-!
Matches of a whole sequence.

A match of the whole sequence can be found in two ways: by passing over the ways that end too early,
or by asking for the end of the sequence behind the pattern and going back into the pattern where it
is not there yet.  The one drops ways that were emitted and the other one never emits them.
-/

namespace StackCode

/-! ## Ways that end with the sequence -/

namespace Ways

variable {ν : Type}

/-- The ways behind which there are no further tokens. -/
def anchored (size : Nat) (ways : Ways ν) : Ways ν :=
  ways.andThen fun stop env => oneIf (size ≤ stop) stop env

/-- The first of the ways that end with the sequence is the first way that does. -/
theorem First.of_anchored {size : Nat} {ways : Ways ν}
    {choice : Except Error (Option (Nat × Bindings ν))}
    (h : (ways.anchored size).First (fun _ => True) choice) :
    ways.First (fun stop => size ≤ stop) choice := by
  induction ways with
  | done => exact h.of_done ▸ .none rfl (List.forall_mem_nil _)
  | failed error => exact h.of_failed ▸ .failed rfl (List.forall_mem_nil _)
  | way stop env rest ih =>
    unfold anchored at h
    rw [andThen] at h
    by_cases hstop : size ≤ stop
    · rw [oneIf, if_pos (decide_eq_true hstop)] at h
      rcases h.of_way with ⟨-, rfl⟩ | ⟨hnot, -⟩
      · exact .found [] rest.toList rfl hstop (List.forall_mem_nil _)
      · exact absurd trivial hnot
    · rw [oneIf, if_neg (by simpa using hstop)] at h
      exact (ih h).behind hstop

end Ways

variable {τ ν : Type}

theorem Pattern.Scopeless.append_atEnd {pattern : Pattern τ ν} (scopeless : pattern.Scopeless) :
    (pattern ++ .atEnd).Scopeless :=
  .chain (List.forall_mem_append.mpr ⟨scopeless.parts, List.forall_mem_singleton.mpr .atEnd⟩)

variable [Capturable τ ν] [DecidableEq τ] {sequence : Array τ}

/-! ## Glimpses of emissions -/

/-- An outcome that is reached is seen from far enough. -/
theorem Cursor.Displays.reached {glimpses : Nat → Glimpse ν} {cursor : Cursor τ ν}
    {captures : Captures ν} (h : cursor.Displays sequence glimpses captures)
    {outcome : Advance τ ν} (hreach : Reaches sequence cursor captures outcome)
    (hne : outcome ≠ .outOfFuel) :
    ∃ need far, Takes sequence need cursor captures outcome ∧
      ∀ horizon, far ≤ horizon → (glimpses horizon).Begins outcome := by
  obtain ⟨enough, hreach⟩ := hreach
  rcases h.cut_or_takes with ⟨hstarve, -⟩ | ⟨need, other, htakes, -⟩
  · exact absurd ((hreach enough (Nat.le_refl _)).symm.trans (hstarve enough)) hne
  · have hother : other = outcome := by
      rw [← hreach (max need enough) (by omega), htakes.reaches (max need enough) (by omega)]
    rw [hother] at htakes
    obtain ⟨far, hbegins⟩ := h.begins htakes hne
    exact ⟨need, far, htakes, hbegins⟩

/-- Where the ways of a cursor come to an end, all of them are seen from far enough. -/
theorem Cursor.Emits.glimpse_eq {cursor : Cursor τ ν} {captures : Captures ν} {ways : Ways ν}
    (h : cursor.Emits sequence captures ways) :
    ∀ {glimpses : Nat → Glimpse ν}, cursor.Displays sequence glimpses captures →
      ∃ far, ∀ horizon, far ≤ horizon → glimpses horizon = .ofWays ways := by
  induction h with
  | done hreach =>
    intro glimpses hdisplays
    obtain ⟨need, far, -, hbegins⟩ := hdisplays.reached hreach (by simp)
    exact ⟨far, fun horizon hhorizon => (hbegins horizon hhorizon).eq_done⟩
  | failed hreach =>
    intro glimpses hdisplays
    obtain ⟨need, far, -, hbegins⟩ := hdisplays.reached hreach (by simp)
    exact ⟨far, fun horizon hhorizon => (hbegins horizon hhorizon).eq_failed⟩
  | way hreach _ ih =>
    intro glimpses hdisplays
    obtain ⟨need, far, htakes, hbegins⟩ := hdisplays.reached hreach (by simp)
    obtain ⟨beyond, hrest⟩ := ih (hdisplays.tail htakes)
    refine ⟨max far beyond, fun horizon hhorizon => ?_⟩
    rw [(hbegins horizon (by omega)).eq_way, hrest horizon (by omega)]
    rfl

/-- A pattern of which all is seen from some horizon emits what is seen. -/
theorem Pattern.Scopeless.emits {pattern : Pattern τ ν} (scopeless : pattern.Scopeless)
    {start : Nat} {captures : Captures ν} {ways : Ways ν} {horizon : Nat}
    (h : pattern.glimpse horizon sequence start captures.snapshot = .ofWays ways) :
    (pattern.cursor start).Emits sequence captures ways := by
  have hshows := scopeless.shown horizon sequence start captures captures.fresh captures.fresh
    (Nat.le_refl _)
  rw [h] at hshows
  have hyields : Yields sequence captures captures.fresh ways (pattern.cursor start) []
      captures.fresh := hshows.of_le (Nat.zero_le _)
  exact hyields.emits

/-! ## The end of the sequence behind a pattern -/

theorem Pattern.glimpse_append_atEnd {pattern : Pattern τ ν} {horizon start : Nat}
    {env : Bindings ν} {ways : Ways ν}
    (h : pattern.glimpse horizon sequence start env = .ofWays ways) :
    (pattern ++ .atEnd).glimpse horizon sequence start env =
      .ofWays (ways.anchored sequence.size) := by
  have hend : Pattern.chainGlimpse horizon sequence [(.atEnd : Pattern τ ν)] =
      fun stop env => .ofWays (.oneIf (sequence.size ≤ stop) stop env) := by
    rw [chainGlimpse_singleton]
    funext stop env
    rw [glimpse, Pattern.ways]
  show (pattern.append .atEnd).glimpse horizon sequence start env = _
  rw [glimpse_append]
  show (pattern.glimpse horizon sequence start env).andThen
    (Pattern.chainGlimpse horizon sequence [.atEnd]) = _
  rw [h, hend]
  exact Glimpse.ofWays_andThen fun _ _ => rfl

/-- Behind a pattern with ways that come to an end, asking for the end of the sequence leaves those
that end there. -/
theorem Cursor.Emits.append_atEnd {pattern : Pattern τ ν} (scopeless : pattern.Scopeless)
    {start : Nat} {captures : Captures ν} {ways : Ways ν}
    (h : (pattern.cursor start).Emits sequence captures ways) :
    ((pattern ++ .atEnd).cursor start).Emits sequence captures (ways.anchored sequence.size) := by
  obtain ⟨far, hglimpse⟩ := h.glimpse_eq (scopeless.displays sequence start captures)
  exact scopeless.append_atEnd.emits
    (Pattern.glimpse_append_atEnd (hglimpse far (Nat.le_refl far)))

/-- Where the ways of a pattern come to an end, a match of the whole sequence, whatever the
strategy, is the first match of the pattern with the end of the sequence behind it.  Both come to
the first way that ends there, to no match or to the same error.  The latter opens a scope in front
of a pattern that is no chain and one for the end behind each way, so that the tests have to look at
what is in sight and not at the scopes. -/
theorem Matcher.matchAll_anchored {pattern : Pattern τ ν} (scopeless : pattern.Scopeless)
    {ways : Ways ν} (finite : (pattern.cursor 0).Emits sequence freshCaptures ways)
    (strategy : Strategy) :
    ∃ choice, ways.First (fun stop => sequence.size ≤ stop) choice ∧
      Settles (fun fuel => Matcher.matchAll { pattern, strategy } fuel sequence)
        (Match.ofChoice 0 choice) ∧
      Settles (fun fuel =>
          Matcher.matchFront { pattern := pattern ++ .atEnd, strategy := .first } fuel sequence)
        (Match.ofChoice 0 choice) := by
  obtain ⟨choice, hchoice, hall⟩ :=
    firstWay_settles 0 (fun stop => decide (sequence.size ≤ stop)) finite
  obtain ⟨other, hother, hfront⟩ :=
    firstWay_settles 0 (fun _ => true) (finite.append_atEnd scopeless)
  have hfirst : ways.First (fun stop => sequence.size ≤ stop) choice :=
    hchoice.congr fun way _ => decide_eq_true_iff
  have hanchored : ways.First (fun stop => sequence.size ≤ stop) other :=
    (hother.congr fun _ _ => iff_of_true rfl trivial).of_anchored
  rw [hanchored.unique hfirst] at hfront
  exact ⟨choice, hfirst, hall, hfront⟩

/-- A run that settles on a match and one that settles on none have no answer in common. -/
theorem Settles.not_both {run other : Nat → Except Halt (Option (Match ν))} {found : Match ν}
    (h : Settles run (.ok (some found))) (hother : Settles other (.ok none)) :
    ¬ ∃ answer, Settles run answer ∧ Settles other answer := by
  rintro ⟨answer, hrun, hanswer⟩
  have heq := (h.unique hrun).trans (hanswer.unique hother)
  cases heq

/-- A token, inside the scope of a match and its own. -/
def twiceDeep : Pattern Char (Captured Char) := .atDepth 2

/-- No token, or else one that is tested when six scopes have been opened. -/
def retried : Pattern Char (Captured Char) := .chain [.choice [.span [0] none, .atId 7]]

/-- Tests that look at the scopes can tell a match of the whole sequence from a match with the end
behind it.  The token of the one pattern is inside a scope more where something follows it, and the
second branch of the other is tried after a scope more where the end was asked for behind the
first. -/
theorem Matcher.scopes_not_anchored :
    ((twiceDeep.cursor 0).Emits #['a'] freshCaptures (.way 1 [] .done) ∧
      ¬ ∃ answer,
        Settles (fun fuel => matchAll { pattern := twiceDeep, strategy := .first } fuel #['a'])
          answer ∧
        Settles (fun fuel =>
          matchFront { pattern := twiceDeep ++ .atEnd, strategy := .first } fuel #['a']) answer) ∧
    (retried.cursor 0).Emits #['a'] freshCaptures (.way 0 [] (.way 1 [] .done)) ∧
      ¬ ∃ answer,
        Settles (fun fuel => matchAll { pattern := retried, strategy := .first } fuel #['a'])
          answer ∧
        Settles (fun fuel =>
          matchFront { pattern := retried ++ .atEnd, strategy := .first } fuel #['a'])
          answer := by
  have houter : Settles (fun fuel =>
      matchAll { pattern := twiceDeep, strategy := .first } fuel #['a'])
      (.ok (some { start := 0, stop := 1, captures := [] })) := .of_add 12 fun _ => rfl
  have hinner : Settles (fun fuel =>
      matchFront { pattern := twiceDeep ++ .atEnd, strategy := .first } fuel #['a'])
      (.ok none) := .of_add 12 fun _ => rfl
  have hfound : Settles (fun fuel =>
      matchAll { pattern := retried, strategy := .first } fuel #['a'])
      (.ok (some { start := 0, stop := 1, captures := [] })) := .of_add 20 fun _ => rfl
  have hmissed : Settles (fun fuel =>
      matchFront { pattern := retried ++ .atEnd, strategy := .first } fuel #['a'])
      (.ok none) := .of_add 20 fun _ => rfl
  exact ⟨⟨.seen (Converges.of_add 12 fun _ => rfl) rfl (.done (Converges.of_add 12 fun _ => rfl)),
      houter.not_both hinner⟩,
    .seen (Converges.of_add 20 fun _ => rfl) rfl
      (.seen (Converges.of_add 20 fun _ => rfl) rfl (.done (Converges.of_add 20 fun _ => rfl))),
    hfound.not_both hmissed⟩

/-- Letters, each of them bound, and after them a letter that nothing is bound to: trying for more
than the whole sequence would come to an error. -/
def letters : Pattern Char (Captured Char) :=
  .choice [.repeated (.token (.oneOf ['a', 'b']) (some "x")) 1 none 1, .back "y"]

/-- The whole sequence is the second way, in front of the error. -/
theorem letters_anchored :
    letters.Scopeless ∧
      (letters.cursor 0).Emits #['a', 'b'] Matcher.freshCaptures
        (.way 1 [("x", .token 'a')] (.way 2 [("x", .token 'b')]
          (.failed (.unboundCapture "y")))) ∧
      ∃ choice,
        (Ways.way 1 [("x", .token 'a')] (.way 2 [("x", .token 'b')]
          (.failed (.unboundCapture "y")))).First (fun stop => 2 ≤ stop) choice ∧
        Settles (fun fuel => Matcher.matchAll { pattern := letters, strategy := .longest } fuel
          #['a', 'b']) (Match.ofChoice 0 choice) ∧
        Settles (fun fuel => Matcher.matchFront
          { pattern := letters ++ .atEnd, strategy := .first } fuel #['a', 'b'])
          (Match.ofChoice 0 choice) := by
  have hoptions : (TokenTest.oneOf ['a', 'b'] : TokenTest Char (Captured Char)).Scopeless := trivial
  have hback : (TokenTest.back "y" : TokenTest Char (Captured Char)).Scopeless := trivial
  have hproductive : letters.Productive #['a', 'b'] :=
    .choice (List.forall_mem_cons.mpr
      ⟨.repeated (.token hoptions (some "x")) 1 (fun _ => Pattern.consumes_token _ _ _) 1,
        List.forall_mem_singleton.mpr (.token hback none)⟩)
  have hemits : (letters.cursor 0).Emits #['a', 'b'] Matcher.freshCaptures
      (.way 1 [("x", .token 'a')] (.way 2 [("x", .token 'b')] (.failed (.unboundCapture "y")))) :=
    hproductive.emits 0 Matcher.freshCaptures
  exact ⟨hproductive.scopeless, hemits,
    Matcher.matchAll_anchored hproductive.scopeless hemits .longest⟩

end StackCode
