import StackCode.Proofs.Pattern.Advances
import StackCode.Proofs.Pattern.Scopes

/-!
Scopes are opened and closed in turn.

Between two advances a cursor keeps scopes open on top of those that it found, and closes them from
a later advance.  `Cursor.Holds` says which scopes those are, nested as the cursor is; every advance
finds them there and leaves the ones below alone.  Nothing is asked of the pattern: repetitions may
match nothing, and predicates may look at the scopes.
-/

namespace StackCode

variable {τ ν : Type}

/-! ## Errors of a pattern -/

/-- A test or a weight of the pattern gives this error. -/
inductive Pattern.Raises (error : Error) : Pattern τ ν → Prop where
  | unbound {name : String} (h : error = .unboundCapture name) (capture : Option String) :
    Raises error (.token (.back name) capture)
  | predicate {decide : Captures ν → τ → Except Error (Verdict ν)} {captures : Captures ν}
    {token : τ} (h : decide captures token = .error error) (capture : Option String) :
    Raises error (.token (.predicate decide) capture)
  | weight {run : WeightedRun τ ν} {token : τ} (h : run.weight token = .error error) :
    Raises error (.weighted run)
  | lookahead {inner : Pattern τ ν} (h : Raises error inner) (hidden : Bool) :
    Raises error (.lookahead inner hidden)
  | choice {branches : List (Pattern τ ν)} {branch : Pattern τ ν} (hbranch : branch ∈ branches)
    (h : Raises error branch) : Raises error (.choice branches)
  | chain {parts : List (Pattern τ ν)} {part : Pattern τ ν} (hpart : part ∈ parts)
    (h : Raises error part) : Raises error (.chain parts)
  | repeated {inner : Pattern τ ν} (h : Raises error inner) (min : Nat) (max : Option Nat)
    (step : Nat) : Raises error (.repeated inner min max step)

/-- All errors of the pattern are among those that are `allowed`. -/
def Pattern.RaisesOnly (allowed : Error → Prop) (pattern : Pattern τ ν) : Prop :=
  ∀ error, pattern.Raises error → allowed error

/-- All errors of the patterns that are still to be matched are among those that are `allowed`. -/
def Agenda.RaisesOnly (allowed : Error → Prop) : Agenda τ ν → Prop
  | parts rest => ∀ part ∈ rest, part.RaisesOnly allowed
  | copies inner _ _ _ _ => inner.RaisesOnly allowed

theorem Agenda.RaisesOnly.next {allowed : Error → Prop} {agenda rest : Agenda τ ν}
    {piece : Pattern τ ν} (h : agenda.RaisesOnly allowed)
    (hnext : agenda.next? = some (piece, rest)) :
    piece.RaisesOnly allowed ∧ rest.RaisesOnly allowed := by
  cases agenda with
  | parts patterns =>
    cases patterns with
    | nil => cases hnext
    | cons part others =>
      cases hnext
      exact List.forall_mem_cons.mp h
  | copies inner count min max step =>
    rw [next?] at hnext
    split at hnext
    · cases hnext
      exact ⟨h, h⟩
    · cases hnext

/-! ## Scopes of a cursor -/

section Holds

variable (allowed : Error → Prop)

mutual

/-- A cursor that keeps exactly these scopes open, the innermost first, on top of those that it
found. -/
inductive Cursor.Holds : Cursor τ ν → List (Scope ν) → Prop where
  | spent : Holds .spent []
  | given (id : Nat) (own : Bindings ν) :
    Holds (.given { id := id }) [{ id := id, bindings := own }]
  | peeked {inner : List (Scope ν)} {id : Nat} (hinner : ∀ scope ∈ inner, id < scope.id)
    (own : Bindings ν) :
    Holds (.peeked { id := id }) (inner ++ [{ id := id, bindings := own }])
  | token {test : TokenTest τ ν} {capture : Option String}
    (hraises : (Pattern.token test capture).RaisesOnly allowed) (start : Nat) :
    Holds (.token test capture start) []
  | span {opened : List (Scope ν)} {scope : Option ScopeToken}
    (hscope : ∀ floor : Captures ν, floor.Closes opened scope) (lengths : List Nat)
    (capture : Option String) (start : Nat) : Holds (.span lengths capture start scope) opened
  | atEnd (start : Nat) : Holds (.atEnd start) []
  | lookahead {inner : Pattern τ ν} (hraises : inner.RaisesOnly allowed) (hidden : Bool)
    (start : Nat) : Holds (.lookahead inner hidden start) []
  | choice {rest : List (Pattern τ ν)} (hraises : ∀ branch ∈ rest, branch.RaisesOnly allowed)
    (start : Nat) : Holds (.choice none rest start) []
  | branch {current : Cursor τ ν} {inner : List (Scope ν)} {rest : List (Pattern τ ν)}
    (hcurrent : current.Holds inner) (hraises : ∀ branch ∈ rest, branch.RaisesOnly allowed)
    (id : Nat) (own : Bindings ν) (start : Nat) :
    Holds (.choice (some (current, { id := id })) rest start)
      (inner ++ [{ id := id, bindings := own }])
  | trail {pieces : List (Cursor τ ν × ScopeToken × Agenda τ ν)} {opened : List (Scope ν)}
    {arrival : Option (Nat × Agenda τ ν × Bool)} (hpieces : Cursor.Stacked pieces opened)
    (hraises : ∀ place ∈ arrival, place.2.1.RaisesOnly allowed) :
    Holds (.trail pieces arrival) opened
  | weighted {run : WeightedRun τ ν} {opened : List (Scope ν)} {scope : Option ScopeToken}
    (hraises : (Pattern.weighted run).RaisesOnly allowed)
    (hscope : ∀ floor : Captures ν, floor.Closes opened scope) (position : Nat) (total : Int) :
    Holds (.weighted run position total scope) opened

/-- Pieces that keep exactly these scopes open.  What a piece opened lies on top of the scope that
was opened for it, and that on top of the scopes of the pieces before. -/
inductive Cursor.Stacked :
    List (Cursor τ ν × ScopeToken × Agenda τ ν) → List (Scope ν) → Prop where
  | nil : Stacked [] []
  | cons {piece : Cursor τ ν} {inner opened : List (Scope ν)} {agenda : Agenda τ ν}
    {pieces : List (Cursor τ ν × ScopeToken × Agenda τ ν)} (hpiece : piece.Holds inner)
    (hraises : agenda.RaisesOnly allowed) (hpieces : Stacked pieces opened) (id : Nat)
    (own : Bindings ν) :
    Stacked ((piece, { id := id }, agenda) :: pieces)
      (inner ++ { id := id, bindings := own } :: opened)

end

end Holds

variable {allowed : Error → Prop}

/-- A cursor that was just made keeps no scope open. -/
theorem Pattern.RaisesOnly.holds {pattern : Pattern τ ν} (h : pattern.RaisesOnly allowed)
    (start : Nat) : (pattern.cursor start).Holds allowed [] := by
  cases pattern with
  | token test capture => exact .token h start
  | span lengths capture => exact .span (fun floor => floor.closes_none) lengths capture start
  | atEnd => exact .atEnd start
  | lookahead inner hidden =>
    exact .lookahead (fun error hinner => h error (.lookahead hinner hidden)) hidden start
  | choice branches =>
    exact .choice (fun branch hmem error hbranch => h error (.choice hmem hbranch)) start
  | chain parts =>
    refine .trail .nil fun place hplace => ?_
    cases hplace
    exact fun part hmem error hpart => h error (.chain hmem hpart)
  | repeated inner min max step =>
    rw [cursor]
    split
    · exact .spent
    · refine .trail .nil fun place hplace => ?_
      cases hplace
      exact fun error hinner => h error (.repeated hinner min max step)
  | weighted run => exact .weighted h (fun floor => floor.closes_none) start 0

/-! ## Tests -/

variable [Capturable τ ν] [DecidableEq τ]

/-- A test that passes binds in the scope that was opened for it. -/
theorem TokenTest.run_atop {test : TokenTest τ ν} {capture : Option String} {token : τ}
    {floor bound : Captures ν} {id fresh : Nat}
    (h : test.run capture token (floor.atop [{ id := id, bindings := [] }] fresh) =
      .ok (some bound)) :
    ∃ own, bound = floor.atop [{ id := id, bindings := own }] fresh := by
  obtain ⟨named, hnamed⟩ := floor.bindIf_atop id fresh [] [] capture (Capturable.ofToken token)
  have hkeep : ∀ {passes : Bool}, TokenTest.run.keep capture token
      (floor.atop [{ id := id, bindings := [] }] fresh) passes = some bound →
      bound = floor.atop [{ id := id, bindings := named }] fresh := by
    intro passes hpasses
    rw [TokenTest.run.keep, TokenTest.run.bound, hnamed] at hpasses
    split at hpasses
    · exact (Option.some.inj hpasses).symm
    · cases hpasses
  cases test with
  | literal value => exact ⟨named, hkeep (Except.ok.inj h)⟩
  | back name =>
    rw [run] at h
    split at h
    · exact ⟨named, hkeep (Except.ok.inj h)⟩
    · cases h
  | oneOf options => exact ⟨named, hkeep (Except.ok.inj h)⟩
  | predicate decide =>
    rw [run, TokenTest.run.bound, hnamed] at h
    split at h
    · cases h
    · exact ⟨named, (Option.some.inj (Except.ok.inj h)).symm⟩
    · rename_i bindings _
      obtain ⟨own, hown⟩ := floor.bindAll_atop id fresh [] bindings named
      exact ⟨own, ((Option.some.inj (Except.ok.inj h)).symm.trans hown)⟩
    · cases h

/-- A test only fails with an error of its own. -/
theorem TokenTest.raises_of_run {test : TokenTest τ ν} {capture : Option String} {token : τ}
    {captures : Captures ν} {error : Error} (h : test.run capture token captures = .error error) :
    (Pattern.token test capture).Raises error := by
  cases test with
  | literal value => cases h
  | back name =>
    rw [run, Captures.get] at h
    split at h
    · cases h
    · rename_i hget
      split at hget
      · cases hget
      · cases hget
        cases h
        exact .unbound rfl capture
  | oneOf options => cases h
  | predicate decide =>
    rw [run] at h
    split at h
    · cases h
    · cases h
    · cases h
    · rename_i hdecide
      cases h
      exact .predicate hdecide capture

/-! ## Advances -/

/-- The scopes that were found are there, and those on top are the ones that the cursor keeps.  A
cursor without further ways has closed them all. -/
def Advance.Balanced (allowed : Error → Prop) (floor : Captures ν) (low fresh : Nat) :
    Advance τ ν → Prop
  | .way _ cursor captures => ∃ opened last, fresh ≤ last ∧ captures = floor.atop opened last ∧
    (∀ scope ∈ opened, low ≤ scope.id) ∧ cursor.Holds allowed opened
  | .done cursor captures => ∃ last, fresh ≤ last ∧ captures = floor.atop [] last ∧
    cursor.Holds allowed []
  | .failed error _ => allowed error
  | .outOfFuel => True

omit [Capturable τ ν] [DecidableEq τ] in
theorem Advance.Balanced.mono {floor : Captures ν} {low fresh later : Nat}
    {outcome : Advance τ ν} (h : outcome.Balanced allowed floor low later) (hle : fresh ≤ later) :
    outcome.Balanced allowed floor low fresh := by
  cases outcome with
  | way stop cursor captures =>
    obtain ⟨opened, last, hlast, hrest⟩ := h
    exact ⟨opened, last, Nat.le_trans hle hlast, hrest⟩
  | done cursor captures =>
    obtain ⟨last, hlast, hrest⟩ := h
    exact ⟨last, Nat.le_trans hle hlast, hrest⟩
  | failed error captures => exact h
  | outOfFuel => trivial

theorem Captures.low_of_singleton {low id : Nat} (hid : low ≤ id) (own : Bindings ν) :
    ∀ scope ∈ [({ id := id, bindings := own } : Scope ν)], low ≤ scope.id := by
  intro scope hscope
  rw [List.mem_singleton.mp hscope]
  exact hid

omit [Capturable τ ν] [DecidableEq τ] in
/-- A cursor that has nothing left to try leaves the floor. -/
theorem Advance.Balanced.spent (floor : Captures ν) (low fresh : Nat) :
    (done .spent (floor.atop [] fresh) : Advance τ ν).Balanced allowed floor low fresh :=
  ⟨fresh, Nat.le_refl fresh, rfl, .spent⟩

omit [Capturable τ ν] [DecidableEq τ] in
/-- A way can be given in a scope that was opened for it. -/
theorem Advance.Balanced.opened {floor : Captures ν} {low fresh : Nat} (hlow : low ≤ fresh)
    {next : Cursor τ ν} {own : Bindings ν}
    (hnext : next.Holds allowed [{ id := fresh, bindings := own }]) (stop : Nat) :
    (way stop next (floor.atop [{ id := fresh, bindings := own }] (fresh + 1))).Balanced allowed
      floor low fresh :=
  ⟨[{ id := fresh, bindings := own }], fresh + 1, Nat.le_succ fresh, rfl,
    Captures.low_of_singleton hlow own, hnext⟩

/-- Wherever the cursor finds its scopes on top of a floor, the outcome is balanced there.  Scopes
that the cursor opens have ids from `low` on. -/
def Advance.BalancedFrom (allowed : Error → Prop) (cursor : Cursor τ ν) (captures : Captures ν)
    (outcome : Advance τ ν) : Prop :=
  ∀ (floor : Captures ν) (low fresh : Nat) (opened : List (Scope ν)),
    captures = floor.atop opened fresh → low ≤ fresh → (∀ scope ∈ opened, low ≤ scope.id) →
    cursor.Holds allowed opened → outcome.Balanced allowed floor low fresh

omit [Capturable τ ν] [DecidableEq τ] in
/-- A cursor that was just made works above the scope that was opened for it. -/
theorem Advance.BalancedFrom.entered {pattern : Pattern τ ν} {start : Nat} {floor : Captures ν}
    {fresh : Nat} {outcome : Advance τ ν}
    (h : outcome.BalancedFrom allowed (pattern.cursor start) (floor.atop [] fresh).enter.2)
    (hraises : pattern.RaisesOnly allowed) :
    outcome.Balanced allowed (floor.atop [{ id := fresh, bindings := [] }] (fresh + 1)) (fresh + 1)
      (fresh + 1) :=
  h _ (fresh + 1) (fresh + 1) [] rfl (Nat.le_refl _) (List.forall_mem_nil _) (hraises.holds start)

omit [Capturable τ ν] [DecidableEq τ] in
/-- A cursor that is part of another one works above the scopes that are not its own. -/
theorem Advance.BalancedFrom.above {current : Cursor τ ν} {floor : Captures ν} {low fresh : Nat}
    {inner below : List (Scope ν)} {outcome : Advance τ ν}
    (h : outcome.BalancedFrom allowed current (floor.atop (inner ++ below) fresh))
    (hlow : low ≤ fresh) (hopened : ∀ scope ∈ inner ++ below, low ≤ scope.id)
    (hholds : current.Holds allowed inner) :
    outcome.Balanced allowed (floor.atop below fresh) low fresh :=
  h _ low fresh inner (Captures.atop_atop floor _ _ fresh fresh).symm hlow
    (List.forall_mem_append.mp hopened).1 hholds

/-- Behind the last way of such a cursor, the scope that was opened for it is the innermost. -/
theorem Captures.exit_above (floor : Captures ν) (id : Nat) (own : Bindings ν)
    (below : List (Scope ν)) (fresh last : Nat) :
    ((floor.atop ({ id := id, bindings := own } :: below) fresh).atop [] last).exit { id := id } =
      .ok (floor.atop below last) := by
  rw [atop_atop]
  exact floor.exit_atop id own below last

omit [Capturable τ ν] [DecidableEq τ] in
/-- A part without further ways has closed its scopes, so that the scope it works in can be left. -/
theorem Advance.BalancedFrom.leaves {current next : Cursor τ ν} {floor left : Captures ν}
    {low fresh id : Nat} {inner below : List (Scope ν)} {own : Bindings ν}
    (h : (done next left).BalancedFrom allowed current
      (floor.atop (inner ++ { id := id, bindings := own } :: below) fresh))
    (hlow : low ≤ fresh)
    (hopened : ∀ scope ∈ inner ++ { id := id, bindings := own } :: below, low ≤ scope.id)
    (hholds : current.Holds allowed inner) :
    ∃ last, fresh ≤ last ∧ left.exit { id := id } = .ok (floor.atop below last) := by
  obtain ⟨last, hlast, rfl, -⟩ := h.above hlow hopened hholds
  exact ⟨last, hlast, floor.exit_above id own below fresh last⟩

/-- A test closes the scope that it opened, unless the token passes. -/
theorem Advances.balanced_token {sequence : Array τ} {test : TokenTest τ ν}
    {capture : Option String} {start : Nat} {captures : Captures ν} {outcome : Advance τ ν}
    (h : Advances sequence (.token test capture start) captures outcome) :
    outcome.BalancedFrom allowed (.token test capture start) captures := by
  rintro floor low fresh opened rfl hlow _ hholds
  cases hholds with
  | token hraises =>
    cases h with
    | starved => trivial
    | tokenPast hitem => exact .spent floor low fresh
    | tokenWay hitem hrun =>
      obtain ⟨own, rfl⟩ := TokenTest.run_atop hrun
      exact .opened hlow (.given fresh own) _
    | tokenRejected hitem hrun => exact ⟨fresh + 1, Nat.le_succ fresh, rfl, .spent⟩
    | tokenFailed hitem hrun => exact hraises _ (TokenTest.raises_of_run hrun)

/-- A span closes the scope of the run before, and opens one for the run that it gives. -/
theorem Advances.balanced_span (sequence : Array τ) {lengths : List Nat} {capture : Option String}
    {start : Nat} {scope : Option ScopeToken} {captures : Captures ν} {outcome : Advance τ ν}
    (h : Advances sequence (.span lengths capture start scope) captures outcome) :
    outcome.BalancedFrom allowed (.span lengths capture start scope) captures := by
  rintro floor low fresh opened rfl hlow _ hholds
  cases hholds with
  | span hscope =>
    cases h with
    | starved => trivial
    | spanStuck hexit => cases (hscope floor fresh).symm.trans hexit
    | spanDone hexit hfits =>
      cases (hscope floor fresh).symm.trans hexit
      exact .spent floor low fresh
    | @spanWay _ rest length _ _ _ _ _ hexit hfits =>
      cases (hscope floor fresh).symm.trans hexit
      obtain ⟨own, hown⟩ := floor.bindIf_atop fresh (fresh + 1) [] [] capture
        (Capturable.ofRun (sequence.extract start (start + length)).toList)
      exact ⟨[{ id := fresh, bindings := own }], fresh + 1, Nat.le_succ fresh, hown,
        Captures.low_of_singleton hlow own,
        .span (fun floor => floor.closes_some fresh own) rest capture start⟩

/-! ### Cursors with others inside

What an advance of such a cursor comes to is balanced if the advances are that it is made of, one
lemma for each rule. -/

namespace Advance.BalancedFrom

omit [Capturable τ ν] [DecidableEq τ]

variable {captures left closed : Captures ν} {outcome : Advance τ ν} {error : Error}

section Lookahead

variable {inner : Pattern τ ν} {cursor : Cursor τ ν} {start stop : Nat}

/-- The inner cursor is dropped with its scopes open, and all of them are closed at once. -/
theorem hidden (h : (way stop cursor left).BalancedFrom allowed (inner.cursor start)
      captures.enter.2) :
    (way start .spent (left.unwind captures.enter.1)).BalancedFrom allowed
      (.lookahead inner true start) captures := by
  rintro floor low fresh opened rfl _ _ hholds
  cases hholds with
  | lookahead hraises =>
    obtain ⟨scopes, last, hlast, rfl, hscopes, -⟩ := h.entered hraises
    refine ⟨[], last, by omega, ?_, List.forall_mem_nil _, .spent⟩
    rw [Captures.atop_atop]
    exact floor.unwind_atop hscopes [] [] last

theorem shown (h : (way stop cursor left).BalancedFrom allowed (inner.cursor start)
      captures.enter.2) :
    (way start (.peeked captures.enter.1) left).BalancedFrom allowed
      (.lookahead inner false start) captures := by
  rintro floor low fresh opened rfl hlow _ hholds
  cases hholds with
  | lookahead hraises =>
    obtain ⟨scopes, last, hlast, rfl, hscopes, -⟩ := h.entered hraises
    refine ⟨scopes ++ [{ id := fresh, bindings := [] }], last, by omega,
      Captures.atop_atop _ _ _ _ _, ?_, .peeked hscopes []⟩
    refine Captures.low_of_append (fun scope hscope => ?_) hlow [] (List.forall_mem_nil _)
    have hid : fresh + 1 ≤ scope.id := hscopes scope hscope
    omega

/-- Without a way of the inner pattern, the scope that was opened for it can be left. -/
theorem leaves_entered {floor : Captures ν} {fresh : Nat}
    (h : (done cursor left).BalancedFrom allowed (inner.cursor start)
      (floor.atop [] fresh).enter.2)
    (hraises : inner.RaisesOnly allowed) :
    ∃ last, fresh ≤ last ∧ left.exit { id := fresh } = .ok (floor.atop [] last) := by
  obtain ⟨last, hlast, rfl, -⟩ := h.entered hraises
  exact ⟨last, by omega, floor.exit_above fresh [] [] _ last⟩

theorem absent {hidden : Bool} (h : (done cursor left).BalancedFrom allowed (inner.cursor start)
      captures.enter.2)
    (hexit : left.exit captures.enter.1 = .ok closed) :
    (done .spent closed).BalancedFrom allowed (.lookahead inner hidden start) captures := by
  rintro floor low fresh opened rfl _ _ hholds
  cases hholds with
  | lookahead hraises =>
    obtain ⟨last, hlast, hleft⟩ := h.leaves_entered hraises
    cases hleft.symm.trans hexit
    exact ⟨last, hlast, rfl, .spent⟩

theorem absentStuck {hidden : Bool}
    (h : (done cursor left).BalancedFrom allowed (inner.cursor start) captures.enter.2)
    (hexit : left.exit captures.enter.1 = .error error) :
    (failed error left).BalancedFrom allowed (.lookahead inner hidden start) captures := by
  rintro floor low fresh opened rfl _ _ hholds
  cases hholds with
  | lookahead hraises =>
    obtain ⟨last, hlast, hleft⟩ := h.leaves_entered hraises
    cases hleft.symm.trans hexit

theorem lookaheadFailed {hidden : Bool}
    (h : (failed error left).BalancedFrom allowed (inner.cursor start) captures.enter.2) :
    (failed error (left.unwind captures.enter.1)).BalancedFrom allowed
      (.lookahead inner hidden start) captures := by
  rintro floor low fresh opened rfl _ _ hholds
  cases hholds with
  | lookahead hraises => exact h.entered hraises

end Lookahead

section Choice

variable {current next : Cursor τ ν} {scope : ScopeToken} {rest : List (Pattern τ ν)}
  {start stop : Nat}

theorem branchWay (h : (way stop next left).BalancedFrom allowed current captures) :
    (way stop (.choice (some (next, scope)) rest start) left).BalancedFrom allowed
      (.choice (some (current, scope)) rest start) captures := by
  rintro floor low fresh opened rfl hlow hopened hholds
  cases hholds with
  | branch hcurrent hraises id own =>
    obtain ⟨inner, last, hlast, rfl, hinner, hnext⟩ := h.above hlow hopened hcurrent
    have hid := (List.forall_mem_append.mp hopened).2
    exact ⟨_, last, hlast, Captures.atop_atop _ _ _ _ _, List.forall_mem_append.mpr ⟨hinner, hid⟩,
      .branch hnext hraises id own _⟩

theorem branchDone (h : (done next left).BalancedFrom allowed current captures)
    (hexit : left.exit scope = .ok closed)
    (hrest : outcome.BalancedFrom allowed (.choice none rest start) closed) :
    outcome.BalancedFrom allowed (.choice (some (current, scope)) rest start) captures := by
  rintro floor low fresh opened rfl hlow hopened hholds
  cases hholds with
  | branch hcurrent hraises id own =>
    obtain ⟨last, hlast, hleft⟩ := h.leaves hlow hopened hcurrent
    cases hleft.symm.trans hexit
    exact (hrest floor low last [] rfl (by omega) (List.forall_mem_nil _)
      (.choice hraises _)).mono hlast

theorem branchStuck (h : (done next left).BalancedFrom allowed current captures)
    (hexit : left.exit scope = .error error) :
    (failed error left).BalancedFrom allowed (.choice (some (current, scope)) rest start)
      captures := by
  rintro floor low fresh opened rfl hlow hopened hholds
  cases hholds with
  | branch hcurrent hraises id own =>
    obtain ⟨last, hlast, hleft⟩ := h.leaves hlow hopened hcurrent
    cases hleft.symm.trans hexit

theorem branchFailed (h : (failed error left).BalancedFrom allowed current captures) :
    (failed error left).BalancedFrom allowed (.choice (some (current, scope)) rest start)
      captures := by
  rintro floor low fresh opened rfl hlow hopened hholds
  cases hholds with
  | branch hcurrent hraises id own => exact h.above hlow hopened hcurrent

theorem branch {branch : Pattern τ ν}
    (h : outcome.BalancedFrom allowed
      (.choice (some (branch.cursor start, captures.enter.1)) rest start) captures.enter.2) :
    outcome.BalancedFrom allowed (.choice none (branch :: rest) start) captures := by
  rintro floor low fresh opened rfl hlow _ hholds
  cases hholds with
  | choice hraises =>
    obtain ⟨hbranch, hraises⟩ := List.forall_mem_cons.mp hraises
    exact (h floor low (fresh + 1) [{ id := fresh, bindings := [] }] rfl (by omega)
      (Captures.low_of_singleton hlow []) (.branch (hbranch.holds _) hraises fresh [] _)).mono
      (Nat.le_succ fresh)

end Choice

section Trail

variable {piece next : Cursor τ ν} {scope : ScopeToken} {agenda rest : Agenda τ ν}
  {pieces : List (Cursor τ ν × ScopeToken × Agenda τ ν)} {position : Nat} {wasGiven : Bool}

theorem complete : (way position (.trail pieces (some (position, agenda, true)))
      captures).BalancedFrom allowed (.trail pieces (some (position, agenda, wasGiven)))
      captures := by
  rintro floor low fresh opened rfl _ hopened hholds
  cases hholds with
  | trail hpieces hraises =>
    have hagenda := hraises _ rfl
    refine ⟨opened, fresh, Nat.le_refl fresh, rfl, hopened, .trail hpieces fun place hplace => ?_⟩
    cases hplace
    exact hagenda

theorem back (h : outcome.BalancedFrom allowed (.trail pieces none) captures) :
    outcome.BalancedFrom allowed (.trail pieces (some (position, agenda, wasGiven))) captures := by
  rintro floor low fresh opened rfl hlow hopened hholds
  cases hholds with
  | trail hpieces hraises =>
    exact h floor low fresh opened rfl hlow hopened
      (.trail hpieces fun _ hplace => absurd hplace (Option.not_mem_none _))

theorem extend {pattern : Pattern τ ν} (hnext : agenda.next? = some (pattern, rest))
    (h : outcome.BalancedFrom allowed
      (.trail ((pattern.cursor position, captures.enter.1, rest) :: pieces) none)
      captures.enter.2) :
    outcome.BalancedFrom allowed (.trail pieces (some (position, agenda, wasGiven))) captures := by
  rintro floor low fresh opened rfl hlow hopened hholds
  cases hholds with
  | trail hpieces hraises =>
    obtain ⟨hpiece, hrest⟩ := (hraises _ rfl).next hnext
    exact (h floor low (fresh + 1) ({ id := fresh, bindings := [] } :: opened) rfl (by omega)
      (List.forall_mem_cons.mpr ⟨hlow, hopened⟩)
      (.trail (.cons (hpiece.holds _) hrest hpieces fresh [])
        fun _ hplace => absurd hplace (Option.not_mem_none _))).mono (Nat.le_succ fresh)

theorem pieceWay (h : (way position next left).BalancedFrom allowed piece captures)
    (harrive : outcome.BalancedFrom allowed
      (.trail ((next, scope, rest) :: pieces) (some (position, rest, false))) left) :
    outcome.BalancedFrom allowed (.trail ((piece, scope, rest) :: pieces) none) captures := by
  rintro floor low fresh opened rfl hlow hopened hholds
  cases hholds with
  | trail hpieces =>
    cases hpieces with
    | cons hpiece hrest hpieces id own =>
      obtain ⟨inner, last, hlast, rfl, hinner, hnext⟩ := h.above hlow hopened hpiece
      have hbelow := (List.forall_mem_append.mp hopened).2
      refine (harrive floor low last _ (Captures.atop_atop _ _ _ _ _) (by omega)
        (List.forall_mem_append.mpr ⟨hinner, hbelow⟩)
        (.trail (.cons hnext hrest hpieces id own) fun place hplace => ?_)).mono hlast
      cases hplace
      exact hrest

theorem pieceDone (h : (done next left).BalancedFrom allowed piece captures)
    (hexit : left.exit scope = .ok closed)
    (hback : outcome.BalancedFrom allowed (.trail pieces none) closed) :
    outcome.BalancedFrom allowed (.trail ((piece, scope, rest) :: pieces) none) captures := by
  rintro floor low fresh opened rfl hlow hopened hholds
  cases hholds with
  | trail hpieces =>
    cases hpieces with
    | cons hpiece hrest hpieces id own =>
      obtain ⟨last, hlast, hleft⟩ := h.leaves hlow hopened hpiece
      have hbelow := (List.forall_mem_append.mp hopened).2
      cases hleft.symm.trans hexit
      exact (hback floor low last _ rfl (by omega) (List.forall_mem_cons.mp hbelow).2
        (.trail hpieces fun _ hplace => absurd hplace (Option.not_mem_none _))).mono hlast

theorem pieceStuck (h : (done next left).BalancedFrom allowed piece captures)
    (hexit : left.exit scope = .error error) :
    (failed error left).BalancedFrom allowed (.trail ((piece, scope, rest) :: pieces) none)
      captures := by
  rintro floor low fresh opened rfl hlow hopened hholds
  cases hholds with
  | trail hpieces =>
    cases hpieces with
    | cons hpiece hrest hpieces id own =>
      obtain ⟨last, hlast, hleft⟩ := h.leaves hlow hopened hpiece
      cases hleft.symm.trans hexit

theorem pieceFailed (h : (failed error left).BalancedFrom allowed piece captures) :
    (failed error left).BalancedFrom allowed (.trail ((piece, scope, rest) :: pieces) none)
      captures := by
  rintro floor low fresh opened rfl hlow hopened hholds
  cases hholds with
  | trail hpieces =>
    cases hpieces with
    | cons hpiece hrest hpieces id own => exact h.above hlow hopened hpiece

end Trail

end Advance.BalancedFrom

/-! ### Weighted runs -/

section Weighted

omit [Capturable τ ν] [DecidableEq τ]

variable {run : WeightedRun τ ν} {position : Nat} {total : Int} {scope : Option ScopeToken}
  {captures closed : Captures ν}

/-- A weighted run gives its way in a scope of its own, with the total bound there if it has a
name. -/
theorem Advance.balanced_weightedWay (hexit : captures.exitIf scope = .ok closed) (weight : Int) :
    (way (position + 1)
      (.weighted run (position + 1) (total + weight) (some closed.enter.1))
      (match run.capture with
        | some (name, value) => closed.enter.2.bind name (value (total + weight))
        | none => closed.enter.2)).BalancedFrom allowed (.weighted run position total scope)
      captures := by
  rintro floor low fresh opened rfl hlow _ hholds
  cases hholds with
  | weighted hraises hscope =>
    cases (hscope floor fresh).symm.trans hexit
    have hway : ∀ own : Bindings ν, Advance.Balanced allowed floor low fresh (.way (position + 1)
        (.weighted run (position + 1) (total + weight) (some { id := fresh }))
        (floor.atop [{ id := fresh, bindings := own }] (fresh + 1))) :=
      fun own => .opened hlow (.weighted hraises (fun floor => floor.closes_some fresh own) _ _) _
    cases run.capture with
    | none => exact hway []
    | some named => exact hway [(named.1, named.2 (total + weight))]

theorem Advance.BalancedFrom.weightedOn {outcome : Advance τ ν} {weight : Int}
    (hexit : captures.exitIf scope = .ok closed)
    (h : outcome.BalancedFrom allowed (.weighted run (position + 1) (total + weight) none)
      closed) :
    outcome.BalancedFrom allowed (.weighted run position total scope) captures := by
  rintro floor low fresh opened rfl hlow _ hholds
  cases hholds with
  | weighted hraises hscope =>
    cases (hscope floor fresh).symm.trans hexit
    exact h floor low fresh [] rfl hlow (List.forall_mem_nil _)
      (.weighted hraises (fun floor => floor.closes_none) _ _)

end Weighted

/-! ### All cursors -/

/-- Every advance is balanced. -/
theorem Advances.balanced {sequence : Array τ} {cursor : Cursor τ ν} {captures : Captures ν}
    {outcome : Advance τ ν} (h : Advances sequence cursor captures outcome) :
    outcome.BalancedFrom allowed cursor captures := by
  -- By induction on the advance: each step says which scopes it opens and closes, and `Holds` says
  -- that those it closes are the innermost ones.
  induction h with
  | starved => exact fun _ _ _ _ _ _ _ _ => trivial
  | spent =>
    rintro floor low fresh opened rfl _ _ hholds
    cases hholds
    exact .spent floor low fresh
  | given hexit =>
    rintro floor low fresh opened rfl _ _ hholds
    cases hholds with
    | given id own =>
      cases (floor.exit_atop id own [] fresh).symm.trans hexit
      exact .spent floor low fresh
  | givenStuck hexit =>
    rintro floor low fresh opened rfl _ _ hholds
    cases hholds with
    | given id own => cases (floor.exit_atop id own [] fresh).symm.trans hexit
  | peeked =>
    rintro floor low fresh opened rfl _ _ hholds
    cases hholds with
    | peeked hinner own =>
      rw [floor.unwind_atop hinner own [] fresh]
      exact .spent floor low fresh
  | tokenPast hitem => exact balanced_token (.tokenPast hitem)
  | tokenWay hitem hrun => exact balanced_token (.tokenWay hitem hrun)
  | tokenRejected hitem hrun => exact balanced_token (.tokenRejected hitem hrun)
  | tokenFailed hitem hrun => exact balanced_token (.tokenFailed hitem hrun)
  | spanStuck hexit => exact balanced_span sequence (.spanStuck hexit)
  | spanDone hexit hfits => exact balanced_span sequence (.spanDone hexit hfits)
  | spanWay hexit hfits => exact balanced_span sequence (.spanWay hexit hfits)
  | inside hstart =>
    rintro floor low fresh opened rfl _ _ hholds
    cases hholds
    exact .spent floor low fresh
  | atEnd hstart =>
    rintro floor low fresh opened rfl _ _ hholds
    cases hholds
    exact ⟨[], fresh, Nat.le_refl fresh, rfl, List.forall_mem_nil _, .spent⟩
  | hidden _ ih => exact ih.hidden
  | shown _ ih => exact ih.shown
  | absent _ hexit ih => exact ih.absent hexit
  | absentStuck _ hexit ih => exact ih.absentStuck hexit
  | lookaheadFailed _ ih => exact ih.lookaheadFailed
  | branchWay _ ih => exact ih.branchWay
  | branchDone _ hexit _ ih ihrest => exact ih.branchDone hexit ihrest
  | branchStuck _ hexit ih => exact ih.branchStuck hexit
  | branchFailed _ ih => exact ih.branchFailed
  | noBranch =>
    rintro floor low fresh opened rfl _ _ hholds
    cases hholds
    exact .spent floor low fresh
  | branch _ ih => exact ih.branch
  | complete hdue => exact .complete
  | back _ _ _ ih => exact ih.back
  | extend _ hnext _ ih => exact .extend hnext ih
  | noPiece =>
    rintro floor low fresh opened rfl _ _ hholds
    cases hholds with
    | trail hpieces =>
      cases hpieces
      exact .spent floor low fresh
  | pieceWay _ _ ih iharrive => exact ih.pieceWay iharrive
  | pieceDone _ hexit _ ih ihback => exact ih.pieceDone hexit ihback
  | pieceStuck _ hexit ih => exact ih.pieceStuck hexit
  | pieceFailed _ ih => exact ih.pieceFailed
  | weightedStuck hexit =>
    rintro floor low fresh opened rfl _ _ hholds
    cases hholds with
    | weighted _ hscope => cases (hscope floor fresh).symm.trans hexit
  | weightedPast hexit hitem =>
    rintro floor low fresh opened rfl _ _ hholds
    cases hholds with
    | weighted _ hscope =>
      cases (hscope floor fresh).symm.trans hexit
      exact .spent floor low fresh
  | weightedFailed hexit hitem hweight =>
    rintro floor low fresh opened rfl _ _ hholds
    cases hholds with
    | weighted hraises => exact hraises _ (.weight hweight)
  | weightedWay hexit hitem hweight haccepts => exact Advance.balanced_weightedWay hexit _
  | weightedOn hexit hitem hweight haccepts _ ih => exact .weightedOn hexit ih

/-! ## Enumerations -/

/-- The scopes of a store, with their bindings, are back as they were.  Others may have been opened
and closed on top. -/
structure Captures.Restored (left captures : Captures ν) : Prop where
  base : captures.base = left.base
  scopes : captures.scopes = left.scopes
  fresh : left.fresh ≤ captures.fresh

theorem Captures.Restored.atop {floor captures : Captures ν} {opened : List (Scope ν)}
    {fresh : Nat} (h : (floor.atop opened fresh).Restored captures) :
    captures = floor.atop opened captures.fresh := by
  obtain ⟨base, scopes, fresh⟩ := captures
  obtain ⟨rfl, rfl, -⟩ := h
  rfl

/-- A cursor on `pattern` that was started on top of `floor`, and the store that its last advance
left.  Before each advance the scopes were put back as the one before had left them. -/
inductive Pattern.Resumes (sequence : Array τ) (pattern : Pattern τ ν) (start : Nat)
    (floor : Captures ν) : Cursor τ ν → Captures ν → Prop where
  | started : Resumes sequence pattern start floor (pattern.cursor start) floor
  | way {cursor next : Cursor τ ν} {left captures after : Captures ν} {stop fuel : Nat}
    (h : Resumes sequence pattern start floor cursor left) (hrestored : left.Restored captures)
    (hadvance : cursor.advance sequence fuel captures = .way stop next after) :
    Resumes sequence pattern start floor next after
  | done {cursor next : Cursor τ ν} {left captures after : Captures ν} {fuel : Nat}
    (h : Resumes sequence pattern start floor cursor left) (hrestored : left.Restored captures)
    (hadvance : cursor.advance sequence fuel captures = .done next after) :
    Resumes sequence pattern start floor next after

/-- The scopes of the floor are at the bottom, and nothing else is left where there are no further
ways.  Errors are those of the pattern. -/
def Advance.Keeps (pattern : Pattern τ ν) (floor : Captures ν) : Advance τ ν → Prop
  | .way _ _ captures => captures.base = floor.base ∧ floor.scopes <:+ captures.scopes
  | .done _ captures => captures.base = floor.base ∧ captures.scopes = floor.scopes
  | .failed error _ => pattern.Raises error
  | .outOfFuel => True

/-- A store that a cursor resumes from has the scopes of the floor at the bottom, and on top of
them those that the cursor keeps. -/
theorem Pattern.Resumes.holds {sequence : Array τ} {pattern : Pattern τ ν} {start : Nat}
    {floor left : Captures ν} {cursor : Cursor τ ν}
    (h : pattern.Resumes sequence start floor cursor left) :
    ∃ opened last, floor.fresh ≤ last ∧ left = floor.atop opened last ∧
      (∀ scope ∈ opened, floor.fresh ≤ scope.id) ∧ cursor.Holds pattern.Raises opened := by
  induction h with
  | started =>
    exact ⟨[], floor.fresh, Nat.le_refl _, rfl, List.forall_mem_nil _,
      Pattern.RaisesOnly.holds (fun _ => id) start⟩
  | way h hrestored hadvance ih =>
    obtain ⟨opened, last, hlast, rfl, hopened, hholds⟩ := ih
    obtain ⟨next, later, hlater, hnext⟩ := hadvance ▸ (Cursor.advances sequence _ _ _).balanced
      floor floor.fresh _ opened hrestored.atop (Nat.le_trans hlast hrestored.fresh) hopened hholds
    exact ⟨next, later, Nat.le_trans hlast (Nat.le_trans hrestored.fresh hlater), hnext⟩
  | done h hrestored hadvance ih =>
    obtain ⟨opened, last, hlast, rfl, hopened, hholds⟩ := ih
    obtain ⟨later, hlater, hnext, hspent⟩ := hadvance ▸ (Cursor.advances sequence _ _ _).balanced
      floor floor.fresh _ opened hrestored.atop (Nat.le_trans hlast hrestored.fresh) hopened hholds
    exact ⟨[], later, Nat.le_trans hlast (Nat.le_trans hrestored.fresh hlater), hnext,
      List.forall_mem_nil _, hspent⟩

/-- However often a cursor is advanced, every advance finds the scopes that it is about to close
where it left them, and the scopes below stay as they are. -/
theorem Pattern.Resumes.keeps {sequence : Array τ} {pattern : Pattern τ ν} {start : Nat}
    {floor left captures : Captures ν} {cursor : Cursor τ ν}
    (h : pattern.Resumes sequence start floor cursor left) (hrestored : left.Restored captures)
    (fuel : Nat) : (cursor.advance sequence fuel captures).Keeps pattern floor := by
  obtain ⟨opened, last, hlast, rfl, hopened, hholds⟩ := h.holds
  have hbalanced := (Cursor.advances sequence fuel cursor captures).balanced floor floor.fresh _
    opened hrestored.atop (Nat.le_trans hlast hrestored.fresh) hopened hholds
  cases hadvance : cursor.advance sequence fuel captures with
  | way stop next after =>
    rw [hadvance] at hbalanced
    obtain ⟨inner, later, -, rfl, -⟩ := hbalanced
    exact ⟨rfl, inner, rfl⟩
  | done next after =>
    rw [hadvance] at hbalanced
    obtain ⟨later, -, rfl, -⟩ := hbalanced
    exact ⟨rfl, rfl⟩
  | failed error after =>
    rw [hadvance] at hbalanced
    exact hbalanced
  | outOfFuel => trivial

/-- Empty spans without end, each bound to a name. -/
def idle : Pattern Char (Captured Char) := .repeated (.span [0] (some "x")) 0 none 1

theorem idle_keeps : ∃ cursor left, idle.Resumes #[] 0 Captures.empty.enter.2 cursor left ∧
    left.scopes.length = 3 ∧ (cursor.advance #[] 4 left).Keeps idle Captures.empty.enter.2 := by
  have hstarted : idle.Resumes #[] 0 Captures.empty.enter.2 _ _ := .started
  have hfirst := hstarted.way ⟨rfl, rfl, Nat.le_refl _⟩
    (show Cursor.advance #[] 4 _ _ = .way 0 _ _ from rfl)
  have hsecond := hfirst.way ⟨rfl, rfl, Nat.le_refl _⟩
    (show Cursor.advance #[] 4 _ _ = .way 0 _ _ from rfl)
  exact ⟨_, _, hsecond, rfl, hsecond.keeps ⟨rfl, rfl, Nat.le_refl _⟩ 4⟩

end StackCode
