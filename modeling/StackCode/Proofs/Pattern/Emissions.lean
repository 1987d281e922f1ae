import StackCode.Pattern.Matcher
import StackCode.Proofs.Pattern.Bounds
import StackCode.Proofs.Pattern.Enumeration

/-!
Emissions, and the choice among them.

A matcher advances the cursor of its pattern until it has decided.  Where the ways that the cursor
emits come to an end, be it with an error, the decision can be told from the list of them: it is
that for the first way that will do, or for the longest one.
-/

namespace StackCode

/-! ## Runs with fuel enough -/

/-- Runs with fuel enough give `value`. -/
def Converges {α : Type} (run : Nat → α) (value : α) : Prop :=
  ∃ need, ∀ fuel, need ≤ fuel → run fuel = value

namespace Converges

variable {α : Type} {run : Nat → α} {value other : α}

theorem of_forall (h : ∀ fuel, run fuel = value) : Converges run value := ⟨0, fun fuel _ => h fuel⟩

theorem of_add (need : Nat) (h : ∀ fuel, run (fuel + need) = value) : Converges run value := by
  refine ⟨need, fun fuel hfuel => ?_⟩
  rw [← Nat.sub_add_cancel hfuel]
  exact h (fuel - need)

theorem unique (h : Converges run value) (hother : Converges run other) : value = other := by
  obtain ⟨need, h⟩ := h
  obtain ⟨enough, hother⟩ := hother
  rw [← h (max need enough) (by omega), hother (max need enough) (by omega)]

theorem of_step (need : Nat) (hstep : ∀ fuel, need ≤ fuel → run (fuel + 1) = value) :
    Converges run value := by
  refine ⟨need + 1, fun fuel hfuel => ?_⟩
  obtain ⟨fuel, rfl⟩ : ∃ less, fuel = less + 1 := ⟨fuel - 1, by omega⟩
  exact hstep fuel (by omega)

/-- A run that goes on as another one with less fuel gives what that one gives. -/
theorem of_succ {next : Nat → α} (need : Nat)
    (hstep : ∀ fuel, need ≤ fuel → run (fuel + 1) = next fuel) (h : Converges next value) :
    Converges run value := by
  obtain ⟨enough, h⟩ := h
  refine ⟨max need enough + 1, fun fuel hfuel => ?_⟩
  obtain ⟨fuel, rfl⟩ : ∃ less, fuel = less + 1 := ⟨fuel - 1, by omega⟩
  rw [hstep fuel (by omega), h fuel (by omega)]

/-- A run that goes on as another one with the same fuel gives what that one gives. -/
theorem of_eventually {next : Nat → α} (need : Nat)
    (hstep : ∀ fuel, need ≤ fuel → run fuel = next fuel) (h : Converges next value) :
    Converges run value := by
  obtain ⟨enough, h⟩ := h
  refine ⟨max need enough, fun fuel hfuel => ?_⟩
  rw [hstep fuel (by omega), h fuel (by omega)]

end Converges

/-- With fuel enough, a run gives the answer, or fails with the error. -/
def Settles {α : Type} (run : Nat → Except Halt α) (answer : Except Error α) : Prop :=
  Converges run (answer.mapError Halt.error)

/-! ## Emissions -/

variable {τ ν : Type} [Capturable τ ν] [DecidableEq τ]

/-- The ways that a cursor gives when it is advanced again and again. -/
inductive Cursor.Emits (sequence : Array τ) : Cursor τ ν → Captures ν → Ways ν → Prop where
  | done {cursor next : Cursor τ ν} {captures left : Captures ν}
    (h : Reaches sequence cursor captures (.done next left)) :
    Emits sequence cursor captures .done
  | failed {cursor : Cursor τ ν} {captures left : Captures ν} {error : Error}
    (h : Reaches sequence cursor captures (.failed error left)) :
    Emits sequence cursor captures (.failed error)
  | way {cursor next : Cursor τ ν} {captures opened : Captures ν} {stop : Nat} {rest : Ways ν}
    (h : Reaches sequence cursor captures (.way stop next opened))
    (hrest : Emits sequence next opened rest) :
    Emits sequence cursor captures (.way stop opened.snapshot rest)

theorem Cursor.Emits.seen {sequence : Array τ} {cursor next : Cursor τ ν}
    {captures opened : Captures ν} {stop : Nat} {env : Bindings ν} {rest : Ways ν}
    (h : Reaches sequence cursor captures (.way stop next opened)) (henv : opened.snapshot = env)
    (hrest : next.Emits sequence opened rest) :
    cursor.Emits sequence captures (.way stop env rest) :=
  henv ▸ .way h hrest

/-- A cursor emits the ways that it yields. -/
theorem Yields.emits {sequence : Array τ} {floor : Captures ν} {low : Nat} {ways : Ways ν} :
    ∀ {cursor : Cursor τ ν} {opened : List (Scope ν)} {fresh : Nat},
      Yields sequence floor low ways cursor opened fresh →
      cursor.Emits sequence (floor.atop opened fresh) ways := by
  induction ways with
  | done =>
    intro cursor opened fresh h
    obtain ⟨last, need, -, htakes⟩ := h fresh (Nat.le_refl fresh)
    exact .done htakes.reached
  | failed error =>
    intro cursor opened fresh h
    obtain ⟨left, need, htakes⟩ := h fresh (Nat.le_refl fresh)
    exact .failed htakes.reached
  | way stop env rest ih =>
    intro cursor opened fresh h
    obtain ⟨next, inner, last, need, -, htakes, -, rfl, hrest⟩ := h fresh (Nat.le_refl fresh)
    exact .way htakes.reached (ih (hrest.of_le (Nat.zero_le _)))

/-- A productive pattern emits its ways. -/
theorem Pattern.Productive.emits {sequence : Array τ} {pattern : Pattern τ ν}
    (h : pattern.Productive sequence) (start : Nat) (captures : Captures ν) :
    (pattern.cursor start).Emits sequence captures
      (pattern.ways sequence start captures.snapshot) :=
  (h.enumerates start captures captures.fresh captures.fresh (Nat.le_refl _)).emits

/-- Whatever is emitted ends where the cursor can come to. -/
theorem Cursor.Emits.within {sequence : Array τ} {cursor : Cursor τ ν} {captures : Captures ν}
    {ways : Ways ν} (h : cursor.Emits sequence captures ways) {low : Nat}
    (hcursor : cursor.Within low sequence.size) :
    ∀ way ∈ ways.toList, low ≤ way.1 ∧ way.1 ≤ sequence.size := by
  induction h with
  | done => exact List.forall_mem_nil _
  | failed => exact List.forall_mem_nil _
  | @way cursor next captures opened stop rest hreach _ ih =>
    obtain ⟨need, hreach⟩ := hreach
    have hwithin := (Cursor.advances sequence need cursor captures).within hcursor
    rw [hreach need (Nat.le_refl need)] at hwithin
    obtain ⟨hstop, hnext⟩ := hwithin
    exact List.forall_mem_cons.mpr ⟨hstop, ih hnext⟩

/-! ## The choice of a way -/

namespace Ways

variable {ν : Type}

/-- The first way with an end that is accepted.  Without one, the error behind the ways counts. -/
inductive First (ways : Ways ν) (Accepts : Nat → Prop) :
    Except Error (Option (Nat × Bindings ν)) → Prop where
  | found (before after : List (Nat × Bindings ν)) {chosen : Nat × Bindings ν}
    (hlist : ways.toList = before ++ chosen :: after) (haccepts : Accepts chosen.1)
    (hbefore : ∀ other ∈ before, ¬Accepts other.1) : First ways Accepts (.ok (some chosen))
  | none (herror : ways.error? = none) (hnone : ∀ other ∈ ways.toList, ¬Accepts other.1) :
    First ways Accepts (.ok none)
  | failed {error : Error} (herror : ways.error? = some error)
    (hnone : ∀ other ∈ ways.toList, ¬Accepts other.1) : First ways Accepts (.error error)

/-- The way with the greatest end in a list, the earliest one of those. -/
inductive LongestOf (list : List (Nat × Bindings ν)) : Option (Nat × Bindings ν) → Prop where
  | found (before after : List (Nat × Bindings ν)) {chosen : Nat × Bindings ν}
    (hlist : list = before ++ chosen :: after) (hbefore : ∀ other ∈ before, other.1 < chosen.1)
    (hafter : ∀ other ∈ after, other.1 ≤ chosen.1) : LongestOf list (some chosen)
  | none (hlist : list = []) : LongestOf list none

/-- The longest way among those in `front` and those behind them.  An error behind the ways counts,
since all of them have to be tried. -/
inductive LongestFrom (front : List (Nat × Bindings ν)) (ways : Ways ν) :
    Except Error (Option (Nat × Bindings ν)) → Prop where
  | tried {choice : Option (Nat × Bindings ν)} (herror : ways.error? = none)
    (hlongest : LongestOf (front ++ ways.toList) choice) : LongestFrom front ways (.ok choice)
  | failed {error : Error} (herror : ways.error? = some error) :
    LongestFrom front ways (.error error)

theorem First.behind {stop : Nat} {env : Bindings ν} {rest : Ways ν} {Accepts : Nat → Prop}
    {choice : Except Error (Option (Nat × Bindings ν))} (h : rest.First Accepts choice)
    (hstop : ¬Accepts stop) : (way stop env rest).First Accepts choice := by
  cases h with
  | @found before after chosen hlist haccepts hbefore =>
    exact .found ((stop, env) :: before) after (congrArg ((stop, env) :: ·) hlist) haccepts
      (List.forall_mem_cons.mpr ⟨hstop, hbefore⟩)
  | none herror hnone => exact .none herror (List.forall_mem_cons.mpr ⟨hstop, hnone⟩)
  | failed herror hnone => exact .failed herror (List.forall_mem_cons.mpr ⟨hstop, hnone⟩)

theorem First.congr {ways : Ways ν} {Accepts Others : Nat → Prop}
    {choice : Except Error (Option (Nat × Bindings ν))} (h : ways.First Accepts choice)
    (hsame : ∀ way ∈ ways.toList, Accepts way.1 ↔ Others way.1) : ways.First Others choice := by
  cases h with
  | @found before after chosen hlist haccepts hbefore =>
    rw [hlist] at hsame
    refine .found before after hlist ((hsame chosen (by simp)).mp haccepts)
      fun other hother hothers => ?_
    exact hbefore other hother ((hsame other (List.mem_append_left _ hother)).mpr hothers)
  | none herror hnone =>
    exact .none herror fun other hother hothers =>
      hnone other hother ((hsame other hother).mpr hothers)
  | failed herror hnone =>
    exact .failed herror fun other hother hothers =>
      hnone other hother ((hsame other hother).mpr hothers)

theorem First.of_way {stop : Nat} {env : Bindings ν} {rest : Ways ν} {Accepts : Nat → Prop}
    {choice : Except Error (Option (Nat × Bindings ν))}
    (h : (way stop env rest).First Accepts choice) :
    Accepts stop ∧ choice = .ok (some (stop, env)) ∨ ¬Accepts stop ∧ rest.First Accepts choice := by
  cases h with
  | @found before after chosen hlist haccepts hbefore =>
    cases before with
    | nil =>
      obtain ⟨rfl, -⟩ := List.cons.inj hlist
      exact Or.inl ⟨haccepts, rfl⟩
    | cons other before =>
      obtain ⟨rfl, hrest⟩ := List.cons.inj hlist
      obtain ⟨hstop, hbefore⟩ := List.forall_mem_cons.mp hbefore
      exact Or.inr ⟨hstop, .found before after hrest haccepts hbefore⟩
  | none herror hnone =>
    obtain ⟨hstop, hnone⟩ := List.forall_mem_cons.mp hnone
    exact Or.inr ⟨hstop, .none herror hnone⟩
  | failed herror hnone =>
    obtain ⟨hstop, hnone⟩ := List.forall_mem_cons.mp hnone
    exact Or.inr ⟨hstop, .failed herror hnone⟩

theorem First.of_done {Accepts : Nat → Prop} {choice : Except Error (Option (Nat × Bindings ν))}
    (h : done.First Accepts choice) : choice = .ok Option.none := by
  cases h with
  | found before after hlist => simp [toList] at hlist
  | none => rfl
  | failed herror => cases herror

theorem First.of_failed {error : Error} {Accepts : Nat → Prop}
    {choice : Except Error (Option (Nat × Bindings ν))}
    (h : (Ways.failed error).First Accepts choice) : choice = .error error := by
  cases h with
  | found before after hlist => simp [toList] at hlist
  | none herror => cases herror
  | failed herror =>
    cases herror
    rfl

/-- There is only one first way. -/
theorem First.unique {ways : Ways ν} {Accepts : Nat → Prop}
    {choice other : Except Error (Option (Nat × Bindings ν))} (h : ways.First Accepts choice)
    (hother : ways.First Accepts other) : choice = other := by
  induction ways with
  | done => rw [h.of_done, hother.of_done]
  | failed error => rw [h.of_failed, hother.of_failed]
  | way stop env rest ih =>
    rcases h.of_way with ⟨hstop, hchoice⟩ | ⟨hstop, h⟩
    · rcases hother.of_way with ⟨-, hfound⟩ | ⟨hnot, -⟩
      · rw [hchoice, hfound]
      · exact absurd hstop hnot
    · rcases hother.of_way with ⟨hfound, -⟩ | ⟨-, hother⟩
      · exact absurd hfound hstop
      · exact ih h hother

section Longest

variable {best next : Nat × Bindings ν} {rest : List (Nat × Bindings ν)}
  {choice : Option (Nat × Bindings ν)}

/-- A way behind one that is no shorter does not matter. -/
theorem LongestOf.insert (h : LongestOf (best :: rest) choice) (hle : next.1 ≤ best.1) :
    LongestOf (best :: next :: rest) choice := by
  cases h with
  | none hlist => cases hlist
  | @found before after chosen hlist hbefore hafter =>
    cases before with
    | nil =>
      obtain ⟨rfl, rfl⟩ := List.cons.inj hlist
      exact .found [] (next :: rest) rfl hbefore (List.forall_mem_cons.mpr ⟨hle, hafter⟩)
    | cons first before =>
      obtain ⟨rfl, rfl⟩ := List.cons.inj hlist
      obtain ⟨hbest, hbefore⟩ := List.forall_mem_cons.mp hbefore
      exact .found (best :: next :: before) after rfl (List.forall_mem_cons.mpr
        ⟨hbest, List.forall_mem_cons.mpr ⟨Nat.lt_of_le_of_lt hle hbest, hbefore⟩⟩) hafter

/-- A way in front of a longer one does not matter. -/
theorem LongestOf.cons (h : LongestOf (next :: rest) choice) (hlt : best.1 < next.1) :
    LongestOf (best :: next :: rest) choice := by
  cases h with
  | none hlist => cases hlist
  | @found before after chosen hlist hbefore hafter =>
    refine .found (best :: before) after (congrArg (best :: ·) hlist)
      (List.forall_mem_cons.mpr ⟨?_, hbefore⟩) hafter
    cases before with
    | nil =>
      obtain ⟨rfl, -⟩ := List.cons.inj hlist
      exact hlt
    | cons first before =>
      obtain ⟨rfl, -⟩ := List.cons.inj hlist
      exact Nat.lt_trans hlt (hbefore next List.mem_cons_self)

end Longest

/-- The better of the best way so far and the next one stands for both. -/
theorem LongestFrom.step {best : Option (Nat × Bindings ν)} {stop : Nat} {env : Bindings ν}
    {rest : Ways ν} {choice : Except Error (Option (Nat × Bindings ν))}
    (h : LongestFrom
      (if best.any (stop ≤ ·.1) then best else some (stop, env)).toList rest choice) :
    LongestFrom best.toList (way stop env rest) choice := by
  cases h with
  | failed herror => exact .failed herror
  | tried herror hlongest =>
    refine .tried herror ?_
    cases best with
    | none => exact hlongest
    | some best =>
      rw [Option.any_some] at hlongest
      by_cases hle : stop ≤ best.1
      · rw [if_pos (decide_eq_true hle)] at hlongest
        exact hlongest.insert hle
      · rw [if_neg (by simpa using hle)] at hlongest
        exact hlongest.cons (Nat.lt_of_not_le hle)

end Ways

/-- The strategy chooses this way, or none, or it comes to the error. -/
def Strategy.Selects {ν : Type} (strategy : Strategy) (ways : Ways ν)
    (choice : Except Error (Option (Nat × Bindings ν))) : Prop :=
  match strategy with
  | .first => ways.First (fun _ => True) choice
  | .longest => ways.LongestFrom [] choice

/-- Without an error behind the ways there is none. -/
theorem Strategy.Selects.eq_ok {ν : Type} {strategy : Strategy} {ways : Ways ν}
    {choice : Except Error (Option (Nat × Bindings ν))} (h : strategy.Selects ways choice)
    (hnone : ways.error? = none) : ∃ chosen, choice = .ok chosen := by
  have hfail : ∀ error, ways.error? ≠ some error := fun error herror => by
    rw [hnone] at herror
    cases herror
  cases strategy with
  | first =>
    cases h with
    | found => exact ⟨_, rfl⟩
    | none => exact ⟨_, rfl⟩
    | failed herror => exact absurd herror (hfail _)
  | longest =>
    cases h with
    | tried => exact ⟨_, rfl⟩
    | failed herror => exact absurd herror (hfail _)

/-- The match that goes with a way from `start` on. -/
def Match.ofWay {ν : Type} (start : Nat) (way : Nat × Bindings ν) : Match ν :=
  { start, stop := way.1, captures := way.2 }

/-- The matches that go with what was chosen. -/
def Match.ofChoice {ν : Type} (start : Nat) (choice : Except Error (Option (Nat × Bindings ν))) :
    Except Error (Option (Match ν)) := choice.map (Option.map (Match.ofWay start))

theorem Match.ofChoice_start {ν : Type} {start : Nat}
    {choice : Except Error (Option (Nat × Bindings ν))} {found : Match ν}
    (h : Match.ofChoice start choice = .ok (some found)) : found.start = start := by
  cases choice with
  | error error => cases h
  | ok chosen =>
    cases chosen with
    | none => cases h
    | some way =>
      cases h
      rfl

namespace Matcher

variable {sequence : Array τ}

theorem firstWay_settles (start : Nat) (accepts : Nat → Bool) {cursor : Cursor τ ν}
    {captures : Captures ν} {ways : Ways ν} (h : cursor.Emits sequence captures ways) :
    ∃ choice, ways.First (fun stop => accepts stop = true) choice ∧
      Settles (fun fuel => firstWay sequence start accepts fuel cursor captures)
        (Match.ofChoice start choice) := by
  induction h with
  | done hreach =>
    obtain ⟨need, hreach⟩ := hreach
    refine ⟨.ok none, .none rfl (List.forall_mem_nil _),
      Converges.of_step need fun fuel hfuel => ?_⟩
    rw [firstWay, hreach fuel hfuel]
    rfl
  | @failed _ _ _ error hreach =>
    obtain ⟨need, hreach⟩ := hreach
    refine ⟨.error error, .failed rfl (List.forall_mem_nil _),
      Converges.of_step need fun fuel hfuel => ?_⟩
    rw [firstWay, hreach fuel hfuel]
    rfl
  | @way cursor next captures opened stop rest hreach _ ih =>
    obtain ⟨need, hreach⟩ := hreach
    by_cases haccepts : accepts stop = true
    · refine ⟨.ok (some (stop, opened.snapshot)),
        .found [] rest.toList rfl haccepts (List.forall_mem_nil _),
        Converges.of_step need fun fuel hfuel => ?_⟩
      rw [firstWay, hreach fuel hfuel]
      exact if_pos haccepts
    · obtain ⟨choice, hchoice, hsettles⟩ := ih
      refine ⟨choice, hchoice.behind haccepts,
        Converges.of_succ need (fun fuel hfuel => ?_) hsettles⟩
      rw [firstWay, hreach fuel hfuel]
      exact if_neg haccepts

/-- The best way so far stands in front of the ways that are still to come. -/
theorem longestWay_settles (start : Nat) {cursor : Cursor τ ν} {captures : Captures ν}
    {ways : Ways ν} (h : cursor.Emits sequence captures ways) :
    ∀ best : Option (Nat × Bindings ν), ∃ choice, ways.LongestFrom best.toList choice ∧
      Settles (fun fuel =>
          longestWay sequence start (best.map (Match.ofWay start)) fuel cursor captures)
        (Match.ofChoice start choice) := by
  induction h with
  | done hreach =>
    intro best
    obtain ⟨need, hreach⟩ := hreach
    refine ⟨.ok best, .tried rfl ?_, Converges.of_step need fun fuel hfuel => ?_⟩
    · cases best with
      | none => exact .none rfl
      | some best =>
        exact .found [] [] rfl (List.forall_mem_nil _) (List.forall_mem_nil _)
    · rw [longestWay, hreach fuel hfuel]
      rfl
  | @failed _ _ _ error hreach =>
    intro best
    obtain ⟨need, hreach⟩ := hreach
    refine ⟨.error error, .failed rfl, Converges.of_step need fun fuel hfuel => ?_⟩
    rw [longestWay, hreach fuel hfuel]
    rfl
  | @way cursor next captures opened stop rest hreach _ ih =>
    intro best
    obtain ⟨need, hreach⟩ := hreach
    obtain ⟨choice, hchoice, hsettles⟩ :=
      ih (if best.any (stop ≤ ·.1) then best else some (stop, opened.snapshot))
    refine ⟨choice, hchoice.step, Converges.of_succ need (fun fuel hfuel => ?_) hsettles⟩
    rw [longestWay, hreach fuel hfuel]
    have hbest : (if (best.map (Match.ofWay start)).any (stop ≤ ·.stop) then
        best.map (Match.ofWay start) else some { start, stop, captures := opened.snapshot }) =
        (if best.any (stop ≤ ·.1) then best else some (stop, opened.snapshot)).map
          (Match.ofWay start) := by
      cases best with
      | none => rfl
      | some best =>
        rw [apply_ite (Option.map (Match.ofWay start))]
        rfl
    exact congrArg (longestWay sequence start · fuel next opened) hbest

variable {matcher : Matcher τ ν}

/-- Where the ways of the pattern come to an end, a matcher settles on what its strategy selects. -/
theorem matchAt_settles {start : Nat} {ways : Ways ν}
    (h : (matcher.pattern.cursor start).Emits sequence freshCaptures ways) :
    ∃ choice, matcher.strategy.Selects ways choice ∧
      Settles (fun fuel => matcher.matchAt fuel sequence start) (Match.ofChoice start choice) := by
  simp only [matchAt]
  cases matcher.strategy with
  | first =>
    obtain ⟨choice, hchoice, hsettles⟩ := firstWay_settles start (fun _ => true) h
    exact ⟨choice, hchoice.congr fun _ _ => iff_of_true rfl trivial, hsettles⟩
  | longest => exact longestWay_settles start h none

/-- A match of the whole sequence is the first way that ends with it. -/
theorem matchAll_settles {ways : Ways ν}
    (h : (matcher.pattern.cursor 0).Emits sequence freshCaptures ways) :
    ∃ choice, ways.First (· = sequence.size) choice ∧
      Settles (fun fuel => matcher.matchAll fuel sequence) (Match.ofChoice 0 choice) := by
  obtain ⟨choice, hchoice, hsettles⟩ :=
    firstWay_settles 0 (fun stop => decide (sequence.size ≤ stop)) h
  refine ⟨choice, hchoice.congr fun way hway => ?_, hsettles⟩
  have hstop := (h.within (matcher.pattern.within_cursor (Nat.le_refl 0)
    (Nat.zero_le sequence.size)) way hway).2
  rw [decide_eq_true_iff]
  exact ⟨fun hle => Nat.le_antisymm hstop hle, fun heq => Nat.le_of_eq heq.symm⟩

end Matcher
end StackCode
