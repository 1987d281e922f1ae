import Mathlib.Algebra.Group.Nat.Defs
import StackCode.Proofs.Pattern.Glimpse
import StackCode.Proofs.Pattern.Scopes

/-!
What it takes for a cursor to give ways.

`Shows` follows a cursor from one advance to the next.  Between two advances the scopes that the
cursor keeps open stay as they are, but others are opened and closed behind it, so of the id of
the next scope it is only known that it does not get smaller.

Where a glimpse is cut, nothing is known but that an advance would have to come to the horizon
first, which little fuel is not enough for.
-/

namespace StackCode

theorem getElem?_of_drop {τ : Type} {sequence : Array τ} {start : Nat} {token : τ}
    {tokens : List τ}
    (h : sequence.toList.drop start = token :: tokens) :
    sequence[start]? = some token ∧ sequence.toList.drop (start + 1) = tokens := by
  constructor
  · have hhead := congrArg (·[0]?) h
    simpa using hhead
  · rw [← List.drop_drop, h]
    rfl

variable {τ ν : Type} [Capturable τ ν] [DecidableEq τ]

/-! ## Advances with enough fuel -/

/-- An advance has `outcome`, given fuel enough. -/
def Reaches (sequence : Array τ) (cursor : Cursor τ ν) (captures : Captures ν)
    (outcome : Advance τ ν) : Prop :=
  ∃ need, ∀ fuel, need ≤ fuel → cursor.advance sequence fuel captures = outcome

/-- An advance has `outcome` with `need` fuel, and runs out of less. -/
structure Takes (sequence : Array τ) (need : Nat) (cursor : Cursor τ ν) (captures : Captures ν)
    (outcome : Advance τ ν) : Prop where
  starves : ∀ fuel < need, cursor.advance sequence fuel captures = .outOfFuel
  reaches : ∀ fuel, need ≤ fuel → cursor.advance sequence fuel captures = outcome

/-- An advance of `cursor` goes on as one of `next` behind a part that takes `need` fuel. -/
structure Leads (sequence : Array τ) (need : Nat) (cursor : Cursor τ ν) (captures : Captures ν)
    (next : Cursor τ ν) (later : Captures ν) : Prop where
  starves : ∀ fuel < need, cursor.advance sequence (fuel + 1) captures = .outOfFuel
  goesOn : ∀ fuel, need ≤ fuel →
    cursor.advance sequence (fuel + 1) captures = next.advance sequence fuel later

section Fuel

variable {sequence : Array τ} {cursor part next : Cursor τ ν} {captures inner later : Captures ν}
  {outcome found : Advance τ ν} {need enough : Nat}

theorem Takes.reached (h : Takes sequence need cursor captures outcome) :
    Reaches sequence cursor captures outcome := ⟨need, h.reaches⟩

theorem Takes.of_forall (h : ∀ fuel, cursor.advance sequence (fuel + 1) captures = outcome) :
    Takes sequence 1 cursor captures outcome := by
  refine ⟨fun fuel hfuel => ?_, fun fuel hfuel => ?_⟩
  · rw [Nat.lt_one_iff.mp hfuel, Cursor.advance_zero]
  · obtain ⟨fuel, rfl⟩ : ∃ less, fuel = less + 1 := ⟨fuel - 1, by omega⟩
    exact h fuel

theorem Leads.of_forall (h : ∀ fuel,
    cursor.advance sequence (fuel + 1) captures = next.advance sequence fuel later) :
    Leads sequence 0 cursor captures next later :=
  ⟨fun fuel hfuel => absurd hfuel (Nat.not_lt_zero fuel), fun fuel _ => h fuel⟩

/-- An advance that goes on as another one takes the fuel that both of them take, and one more. -/
theorem Takes.of_leads (hlead : Leads sequence need cursor captures next later)
    (hnext : Takes sequence enough next later outcome) :
    Takes sequence (max need enough + 1) cursor captures outcome := by
  refine ⟨fun fuel hfuel => ?_, fun fuel hfuel => ?_⟩
  · cases fuel with
    | zero => exact cursor.advance_zero sequence captures
    | succ fuel =>
      by_cases hneed : fuel < need
      · exact hlead.starves fuel hneed
      · rw [hlead.goesOn fuel (by omega), hnext.starves fuel (by omega)]
  · obtain ⟨fuel, rfl⟩ : ∃ less, fuel = less + 1 := ⟨fuel - 1, by omega⟩
    rw [hlead.goesOn fuel (by omega), hnext.reaches fuel (by omega)]

/-! An advance of a cursor that is made of others advances one of them first. -/

theorem Takes.of_part (hpart : Takes sequence need part inner found)
    (hstarve : ∀ fuel, part.advance sequence fuel inner = .outOfFuel →
      cursor.advance sequence (fuel + 1) captures = .outOfFuel)
    (hfound : ∀ fuel, part.advance sequence fuel inner = found →
      cursor.advance sequence (fuel + 1) captures = outcome) :
    Takes sequence (need + 1) cursor captures outcome := by
  refine ⟨fun fuel hfuel => ?_, fun fuel hfuel => ?_⟩
  · cases fuel with
    | zero => exact cursor.advance_zero sequence captures
    | succ fuel => exact hstarve fuel (hpart.starves fuel (by omega))
  · obtain ⟨fuel, rfl⟩ : ∃ less, fuel = less + 1 := ⟨fuel - 1, by omega⟩
    exact hfound fuel (hpart.reaches fuel (by omega))

theorem Leads.of_part (hpart : Takes sequence need part inner found)
    (hstarve : ∀ fuel, part.advance sequence fuel inner = .outOfFuel →
      cursor.advance sequence (fuel + 1) captures = .outOfFuel)
    (hfound : ∀ fuel, part.advance sequence fuel inner = found →
      cursor.advance sequence (fuel + 1) captures = next.advance sequence fuel later) :
    Leads sequence need cursor captures next later :=
  ⟨fun fuel hfuel => hstarve fuel (hpart.starves fuel hfuel),
    fun fuel hfuel => hfound fuel (hpart.reaches fuel hfuel)⟩

end Fuel

/-! ## Cursors that give ways -/

/-- Advances of a cursor that keeps `opened` scopes on top of `floor` give the ways of the glimpse
one after the other, however far the ids of scopes have come since.  The scopes that it opens have
ids from `low` on, and they are all closed in the end.

Where the glimpse is cut, an advance runs out of all fuel that is too little for the horizon.  With
one more fuel an advance can come twice as far, so that each one brings the horizon nearer by a
power of two. -/
def Shows (sequence : Array τ) (floor : Captures ν) (low : Nat) :
    (horizon : Nat) → Glimpse ν → Cursor τ ν → (opened : List (Scope ν)) → (fresh : Nat) → Prop
  | horizon, .cut, cursor, opened, fresh => ∀ later, fresh ≤ later →
    ∀ fuel, 2 ^ fuel ≤ horizon →
      cursor.advance sequence fuel (floor.atop opened later) = .outOfFuel
  | _, .done, cursor, opened, fresh => ∀ later, fresh ≤ later → ∃ last need, later ≤ last ∧
    Takes sequence need cursor (floor.atop opened later) (.done .spent (floor.atop [] last))
  | _, .failed error, cursor, opened, fresh => ∀ later, fresh ≤ later → ∃ left need,
    Takes sequence need cursor (floor.atop opened later) (.failed error left)
  | horizon, .way stop env rest, cursor, opened, fresh => ∀ later, fresh ≤ later →
    ∃ (next : Cursor τ ν) (inner : List (Scope ν)) (last need : Nat), later ≤ last ∧
      Takes sequence need cursor (floor.atop opened later)
        (.way stop next (floor.atop inner last)) ∧
      (∀ scope ∈ inner, low ≤ scope.id) ∧ (floor.atop inner last).snapshot = env ∧
      Shows sequence floor low (horizon - 2 ^ need) rest next inner last

/-- Advances of a cursor give all the ways. -/
def Yields (sequence : Array τ) (floor : Captures ν) (low : Nat) (ways : Ways ν)
    (cursor : Cursor τ ν) (opened : List (Scope ν)) (fresh : Nat) : Prop :=
  Shows sequence floor low 0 (.ofWays ways) cursor opened fresh

theorem two_pow_add_le (first second : Nat) :
    2 ^ first + 2 ^ second ≤ 2 ^ (max first second + 1) := by
  have hfirst : 2 ^ first ≤ 2 ^ max first second :=
    Nat.pow_le_pow_right Nat.zero_lt_two (Nat.le_max_left _ _)
  have hsecond : 2 ^ second ≤ 2 ^ max first second :=
    Nat.pow_le_pow_right Nat.zero_lt_two (Nat.le_max_right _ _)
  rw [Nat.pow_succ]
  omega

namespace Shows

variable {sequence : Array τ} {floor : Captures ν} {low horizon : Nat} {glimpse : Glimpse ν}
  {cursor : Cursor τ ν} {opened : List (Scope ν)} {fresh : Nat}

theorem mono {later : Nat} (h : Shows sequence floor low horizon glimpse cursor opened fresh)
    (hle : fresh ≤ later) : Shows sequence floor low horizon glimpse cursor opened later := by
  cases glimpse <;> exact fun last hlast => h last (Nat.le_trans hle hlast)

/-- Less is known where the horizon is nearer. -/
theorem of_le {nearer : Nat} (h : Shows sequence floor low horizon glimpse cursor opened fresh)
    (hle : nearer ≤ horizon) : Shows sequence floor low nearer glimpse cursor opened fresh := by
  induction glimpse generalizing nearer horizon cursor opened fresh with
  | cut => exact fun later hlater fuel hfuel => h later hlater fuel (Nat.le_trans hfuel hle)
  | done => exact h
  | failed error => exact h
  | way stop env rest ih =>
    intro later hlater
    obtain ⟨next, inner, last, need, hlast, htakes, hinner, henv, hrest⟩ := h later hlater
    exact ⟨next, inner, last, need, hlast, htakes, hinner, henv,
      ih hrest (Nat.sub_le_sub_right hle _)⟩

/-- Nothing is known at the horizon. -/
theorem cut_zero : Shows sequence floor low 0 .cut cursor opened fresh :=
  fun _ _ fuel hfuel => absurd hfuel (Nat.not_le.mpr (Nat.two_pow_pos fuel))

/-- A cursor does not get to the horizon if it has to advance one first that does not. -/
theorem cut_of_part
    (h : ∀ later, fresh ≤ later → ∀ fuel, 2 ^ fuel ≤ horizon →
      cursor.advance sequence (fuel + 1) (floor.atop opened later) = .outOfFuel) :
    Shows sequence floor low horizon .cut cursor opened fresh := by
  intro later hlater fuel hfuel
  cases fuel with
  | zero => exact cursor.advance_zero sequence _
  | succ fuel =>
    exact h later hlater fuel
      (Nat.le_trans (Nat.pow_le_pow_right Nat.zero_lt_two (Nat.le_succ fuel)) hfuel)

/-- A cursor shows what the cursor shows that it goes on as. -/
theorem of_leads
    (h : ∀ later, fresh ≤ later →
      ∃ (next : Cursor τ ν) (inner : List (Scope ν)) (last need : Nat), later ≤ last ∧
        Leads sequence need cursor (floor.atop opened later) next (floor.atop inner last) ∧
        Shows sequence floor low (horizon - 2 ^ need) glimpse next inner last) :
    Shows sequence floor low horizon glimpse cursor opened fresh := by
  cases glimpse with
  | cut =>
    intro later hlater fuel hfuel
    obtain ⟨next, inner, middle, need, hmiddle, hlead, hshows⟩ := h later hlater
    cases fuel with
    | zero => exact cursor.advance_zero sequence _
    | succ fuel =>
      by_cases hneed : fuel < need
      · exact hlead.starves fuel hneed
      · have hboth := two_pow_add_le fuel need
        rw [Nat.max_eq_left (by omega)] at hboth
        rw [hlead.goesOn fuel (by omega)]
        exact hshows middle (Nat.le_refl middle) fuel (by omega)
  | done =>
    intro later hlater
    obtain ⟨next, inner, middle, need, hmiddle, hlead, hshows⟩ := h later hlater
    obtain ⟨last, enough, hlast, htakes⟩ := hshows middle (Nat.le_refl middle)
    exact ⟨last, _, Nat.le_trans hmiddle hlast, Takes.of_leads hlead htakes⟩
  | failed error =>
    intro later hlater
    obtain ⟨next, inner, middle, need, hmiddle, hlead, hshows⟩ := h later hlater
    obtain ⟨left, enough, htakes⟩ := hshows middle (Nat.le_refl middle)
    exact ⟨left, _, Takes.of_leads hlead htakes⟩
  | way stop env rest =>
    intro later hlater
    obtain ⟨next, inner, middle, need, hmiddle, hlead, hshows⟩ := h later hlater
    obtain ⟨after, kept, last, enough, hlast, htakes, hkept, henv, hrest⟩ :=
      hshows middle (Nat.le_refl middle)
    have hboth := two_pow_add_le need enough
    exact ⟨after, kept, last, _, Nat.le_trans hmiddle hlast, Takes.of_leads hlead htakes, hkept,
      henv, hrest.of_le (by omega)⟩

/-- Only what the advances of a cursor do matters. -/
theorem of_advance_eq {next : Cursor τ ν}
    (hadvance : ∀ fuel captures,
      cursor.advance sequence fuel captures = next.advance sequence fuel captures)
    (h : Shows sequence floor low horizon glimpse next opened fresh) :
    Shows sequence floor low horizon glimpse cursor opened fresh := by
  have htakes : ∀ need captures outcome,
      Takes sequence need cursor captures outcome ↔ Takes sequence need next captures outcome := by
    intro need captures outcome
    constructor <;> intro h <;>
      exact ⟨by simpa only [hadvance] using h.starves, by simpa only [hadvance] using h.reaches⟩
  cases glimpse <;> simpa only [Shows, htakes, hadvance] using h

end Shows

/-! ## Cursors on single patterns -/

section Leaves

variable (sequence : Array τ) (floor : Captures ν) (low : Nat) {horizon : Nat}

theorem Shows.spent (fresh : Nat) : Shows sequence floor low horizon .done .spent [] fresh := by
  intro later hlater
  exact ⟨later, 1, Nat.le_refl later, Takes.of_forall fun fuel => rfl⟩

theorem Shows.given (id : Nat) (own : Bindings ν) (fresh : Nat) :
    Shows sequence floor low horizon .done (.given { id := id }) [{ id := id, bindings := own }]
      fresh := by
  intro later hlater
  refine ⟨later, 1, Nat.le_refl later, Takes.of_forall fun fuel => ?_⟩
  rw [Cursor.advance, Captures.exit_atop]

/-- A cursor that opens a scope for its next way, and binds only there. -/
theorem Shows.bound {cursor : Cursor τ ν} (next : ScopeToken → Cursor τ ν) {stop fresh : Nat}
    {env : Bindings ν} {rest : Glimpse ν} {opened : List (Scope ν)} (hlow : low ≤ fresh)
    (h : ∀ later, low ≤ later → ∃ own,
      (floor.atop [{ id := later, bindings := own }] later).snapshot = env ∧
      Takes sequence 1 cursor (floor.atop opened later) (.way stop (next { id := later })
        (floor.atop [{ id := later, bindings := own }] (later + 1))) ∧
      Shows sequence floor low horizon rest (next { id := later })
        [{ id := later, bindings := own }] (later + 1)) :
    Shows sequence floor low horizon (.way stop env rest) cursor opened fresh := by
  intro later hlater
  have hle : low ≤ later := Nat.le_trans hlow hlater
  obtain ⟨own, henv, htakes, hrest⟩ := h later hle
  refine ⟨_, _, later + 1, 1, Nat.le_succ later, htakes, ?_, henv, hrest.of_le (Nat.sub_le _ _)⟩
  intro scope hscope
  have hscope : scope = { id := later, bindings := own } := List.mem_singleton.mp hscope
  rw [hscope]
  exact hle

theorem Shows.token {test : TokenTest τ ν} (scopeless : test.Scopeless)
    (capture : Option String) (start : Nat) {fresh : Nat} (hlow : low ≤ fresh) :
    Shows sequence floor low horizon
      (.ofWays ((Pattern.token test capture).ways sequence start floor.snapshot))
      (.token test capture start) [] fresh := by
  rw [Pattern.ways]
  cases hitem : sequence[start]? with
  | none =>
    intro later _
    refine ⟨later, 1, Nat.le_refl later, Takes.of_forall fun fuel => ?_⟩
    rw [Cursor.advance, hitem]
  | some item =>
    have hrun : ∀ later,
        test.run capture item (floor.atop [{ id := later, bindings := [] }] (later + 1)) =
          (test.verdict item floor.snapshot).map (Verdict.store capture item
            (floor.atop [{ id := later, bindings := [] }] (later + 1))) :=
      fun later => TokenTest.run_eq scopeless capture item _
    show Shows sequence floor low horizon
      (.ofWays (test.ways capture item start floor.snapshot)) _ [] fresh
    cases hverdict : test.verdict item floor.snapshot with
    | error error =>
      have hways : test.ways capture item start floor.snapshot = .failed error := by
        simp only [TokenTest.ways, hverdict]
      rw [hways]
      intro later _
      refine ⟨floor.atop [{ id := later, bindings := [] }] (later + 1), 1,
        Takes.of_forall fun fuel => ?_⟩
      simp only [Cursor.advance, hitem, Captures.enter_atop, hrun, hverdict, Except.map]
    | ok verdict =>
      cases hsight : verdict.sight capture item floor.snapshot with
      | none =>
        have hways : test.ways capture item start floor.snapshot = .done := by
          simp only [TokenTest.ways, hverdict, hsight]
        rw [hways]
        intro later _
        refine ⟨later + 1, 1, Nat.le_succ later, Takes.of_forall fun fuel => ?_⟩
        simp only [Cursor.advance, hitem, Captures.enter_atop, hrun, hverdict, Except.map,
          Verdict.store_of_none hsight, Captures.exit_atop]
      | some env =>
        have hways : test.ways capture item start floor.snapshot = .one (start + 1) env := by
          simp only [TokenTest.ways, hverdict, hsight]
        rw [hways]
        apply Shows.bound sequence floor low (fun scope => .given scope) hlow
        intro later _
        obtain ⟨own, hown, henv⟩ := Verdict.store_of_some hsight later (later + 1)
        refine ⟨own, henv, Takes.of_forall fun fuel => ?_,
          Shows.given sequence floor low later own (later + 1)⟩
        simp only [Cursor.advance, hitem, Captures.enter_atop, hrun, hverdict, Except.map, hown]

theorem Shows.atEnd (start : Nat) (fresh : Nat) :
    Shows sequence floor low horizon
      (.ofWays ((Pattern.atEnd : Pattern τ ν).ways sequence start floor.snapshot))
      (.atEnd start) [] fresh := by
  rw [Pattern.ways]
  by_cases hend : sequence.size ≤ start
  · have hinside : ¬ start < sequence.size := by omega
    rw [Ways.oneIf, if_pos (decide_eq_true hend)]
    intro later _
    refine ⟨.spent, [], later, 1, Nat.le_refl later, Takes.of_forall fun fuel => ?_,
      fun _ hscope => absurd hscope List.not_mem_nil, rfl, Shows.spent sequence floor low later⟩
    rw [Cursor.advance, if_neg hinside]
  · have hinside : start < sequence.size := by omega
    rw [Ways.oneIf, if_neg (by simpa using hend)]
    intro later _
    refine ⟨later, 1, Nat.le_refl later, Takes.of_forall fun fuel => ?_⟩
    rw [Cursor.advance, if_pos hinside]

/-- A span that still has its last scope open goes on with the lengths that are left. -/
theorem Shows.span (capture : Option String) (start : Nat) :
    ∀ (lengths : List Nat) (scope : Option ScopeToken) (opened : List (Scope ν)) (fresh : Nat),
      low ≤ fresh → floor.Closes opened scope →
      Shows sequence floor low horizon
        (.ofWays ((Pattern.span lengths capture).ways sequence start floor.snapshot))
        (.span lengths capture start scope) opened fresh := by
  intro lengths
  induction lengths with
  | nil =>
    intro scope opened fresh _ hcloses later _
    refine ⟨later, 1, Nat.le_refl later, Takes.of_forall fun fuel => ?_⟩
    rw [Cursor.advance, hcloses later]
    rfl
  | cons length rest ih =>
    intro scope opened fresh hlow hcloses
    by_cases hfits : start + length ≤ sequence.size
    · have hshort : ¬ sequence.size < start + length := by omega
      have hways : (Pattern.span (length :: rest) capture).ways sequence start floor.snapshot =
          .way (start + length)
            (Bindings.putIf floor.snapshot capture
              (Capturable.ofRun (sequence.extract start (start + length)).toList))
            ((Pattern.span rest capture).ways sequence start floor.snapshot) := by
        rw [Pattern.ways, List.filter_cons, if_pos (decide_eq_true hfits)]
        rfl
      rw [hways]
      apply Shows.bound sequence floor low
        (fun scope => .span rest capture start (some scope)) hlow
      intro later hlater
      obtain ⟨own, hown⟩ := floor.bindIf_atop later (later + 1) [] [] capture
        (Capturable.ofRun (sequence.extract start (start + length)).toList)
      refine ⟨own, ?_, Takes.of_forall fun fuel => ?_,
        ih (some { id := later }) _ (later + 1) (by omega) (floor.closes_some later own)⟩
      · show (floor.atop [{ id := later, bindings := own }] (later + 1)).snapshot = _
        rw [← hown, Captures.snapshot_bindIf]
        rfl
      · rw [Cursor.advance, hcloses later, List.dropWhile_cons, if_neg (by simpa using hshort),
          ← hown]
        rfl
    · -- A length that does not fit is dropped in the same advance.
      have hlong : sequence.size < start + length := by omega
      have hways : (Pattern.span (length :: rest) capture).ways sequence start floor.snapshot =
          (Pattern.span rest capture).ways sequence start floor.snapshot := by
        rw [Pattern.ways, Pattern.ways, List.filter_cons, if_neg (by simpa using hfits)]
      rw [hways]
      refine Shows.of_advance_eq (fun fuel captures => ?_) (ih scope opened fresh hlow hcloses)
      cases fuel with
      | zero => rw [Cursor.advance_zero, Cursor.advance_zero]
      | succ fuel =>
        rw [Cursor.advance, Cursor.advance, List.dropWhile_cons, if_pos (decide_eq_true hlong)]

/-- A weighted run that still has its last scope open goes on with the tokens behind it. -/
theorem Shows.weighted (run : WeightedRun τ ν) :
    ∀ (tokens : List τ) (start : Nat) (total : Int) (scope : Option ScopeToken)
      (opened : List (Scope ν)) (fresh : Nat), sequence.toList.drop start = tokens →
      low ≤ fresh → floor.Closes opened scope →
      Shows sequence floor low horizon (.ofWays (run.ways tokens start total floor.snapshot))
        (.weighted run start total scope) opened fresh := by
  intro tokens
  induction tokens with
  | nil =>
    intro start total scope opened fresh htokens _ hcloses later _
    have hitem : sequence[start]? = none := by
      rw [← Array.getElem?_toList, List.getElem?_eq_none_iff]
      exact List.drop_eq_nil_iff.mp htokens
    refine ⟨later, 1, Nat.le_refl later, Takes.of_forall fun fuel => ?_⟩
    rw [Cursor.advance, hcloses later, hitem]
  | cons token tokens ih =>
    intro start total scope opened fresh htokens hlow hcloses
    obtain ⟨hitem, hrest⟩ := getElem?_of_drop htokens
    rw [WeightedRun.ways]
    cases hweight : run.weight token with
    | error error =>
      intro later _
      refine ⟨floor.atop [] later, 1, Takes.of_forall fun fuel => ?_⟩
      rw [Cursor.advance, hcloses later, hitem]
      simp only [hweight]
    | ok weight =>
      by_cases haccepts : run.totals.accepts (total + weight) = true
      · simp only [haccepts, if_true]
        apply Shows.bound sequence floor low
          (fun scope => .weighted run (start + 1) (total + weight) (some scope)) hlow
        intro later hlater
        have hclosed : ∀ own, Shows sequence floor low horizon
            (.ofWays (run.ways tokens (start + 1) (total + weight) floor.snapshot))
            (.weighted run (start + 1) (total + weight) (some { id := later }))
            [{ id := later, bindings := own }] (later + 1) := fun own =>
          ih (start + 1) (total + weight) (some { id := later }) _ (later + 1) hrest (by omega)
            (floor.closes_some later own)
        cases hcapture : run.capture with
        | none =>
          refine ⟨[], rfl, Takes.of_forall fun fuel => ?_, hclosed []⟩
          rw [Cursor.advance, hcloses later, hitem]
          simp only [hweight, haccepts, if_true, hcapture]
          rfl
        | some binding =>
          refine ⟨[(binding.1, binding.2 (total + weight))], rfl,
            Takes.of_forall fun fuel => ?_, hclosed _⟩
          rw [Cursor.advance, hcloses later, hitem]
          simp only [hweight, haccepts, if_true, hcapture]
          rfl
      · simp only [haccepts]
        apply Shows.of_leads
        intro later hlater
        refine ⟨_, [], later, 0, Nat.le_refl later, Leads.of_forall fun fuel => ?_,
          (ih (start + 1) (total + weight) none [] later hrest (by omega)
            floor.closes_none).of_le (Nat.sub_le _ _)⟩
        rw [Cursor.advance, hcloses later, hitem]
        simp only [hweight, haccepts]
        rfl

end Leaves

end StackCode
