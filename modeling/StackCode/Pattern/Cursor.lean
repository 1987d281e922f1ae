import StackCode.Pattern.Basic

/-!
Cursors: the ways in which a pattern matches from a fixed place, one at a time.  Each advance
gives the end of the next way, or says that there is none.

The bindings made for a way stay in scopes that the cursor keeps open until its next advance, so
that they are visible to whatever is matched behind it.  A cursor without further ways has
closed every scope it opened.  Repetitions and chains keep their own stack of cursors, so the
recursion depth of a match does not grow with the number of repetitions.
-/

namespace StackCode

/-- What remains to be matched behind the pieces matched so far. -/
inductive Agenda (τ ν : Type) where
  | parts (rest : List (Pattern τ ν))
  /-- `count` copies of `inner` are matched. -/
  | copies (inner : Pattern τ ν) (count min : Nat) (max : Option Nat) (step : Nat)

namespace Agenda

variable {τ ν : Type}

/-- The pieces matched so far are a way of the whole. -/
def isComplete : Agenda τ ν → Bool
  | parts rest => rest.isEmpty
  | copies _ count min _ step => min ≤ count && (count - min) % step = 0

/-- The piece to be matched next, and what remains behind it. -/
def next? : Agenda τ ν → Option (Pattern τ ν × Agenda τ ν)
  | parts [] => none
  | parts (part :: rest) => some (part, parts rest)
  | copies inner count min max step =>
    if max.all (count < ·) then some (inner, copies inner (count + 1) min max step) else none

end Agenda

/-- A match in progress. -/
inductive Cursor (τ ν : Type) where
  /-- Nothing is left to try. -/
  | spent
  /-- The only way was given, and its scope is still open. -/
  | given (scope : ScopeToken)
  /-- The only way was given, and its scope is still open, with others inside. -/
  | peeked (scope : ScopeToken)
  | token (test : TokenTest τ ν) (capture : Option String) (start : Nat)
  | span (lengths : List Nat) (capture : Option String) (start : Nat)
      (scope : Option ScopeToken)
  | atEnd (start : Nat)
  | lookahead (inner : Pattern τ ν) (hidden : Bool) (start : Nat)
  /-- The branch that is tried, with its scope, and the branches behind it. -/
  | choice (current : Option (Cursor τ ν × ScopeToken)) (rest : List (Pattern τ ν))
      (start : Nat)
  /-- The pieces of a chain or a repetition, the last one first, each with its scope and what
  remains behind it.  `arrival` is the place that the pieces reached, with what remains from
  there, and whether it has been given as a way. -/
  | trail (pieces : List (Cursor τ ν × ScopeToken × Agenda τ ν))
      (arrival : Option (Nat × Agenda τ ν × Bool))
  | weighted (run : WeightedRun τ ν) (position : Nat) (total : Int) (scope : Option ScopeToken)

/-- A cursor on `pattern` at `start`. -/
def Pattern.cursor {τ ν : Type} (start : Nat) : Pattern τ ν → Cursor τ ν
  | .token test capture => .token test capture start
  | .span lengths capture => .span lengths capture start none
  | .atEnd => .atEnd start
  | .lookahead inner hidden => .lookahead inner hidden start
  | .choice branches => .choice none branches start
  | .chain parts => .trail [] (some (start, .parts parts, false))
  | .repeated inner min max step =>
    if max.any (· < min) then .spent
    else .trail [] (some (start, .copies inner 0 min max (Nat.max step 1), false))
  | .weighted run => .weighted run start 0 none

/-- The outcome of an advance. -/
inductive Advance (τ ν : Type) where
  /-- The pattern matches up to `stop`. -/
  | way (stop : Nat) (cursor : Cursor τ ν) (captures : Captures ν)
  /-- There are no further ways. -/
  | done (cursor : Cursor τ ν) (captures : Captures ν)
  | failed (error : Error) (captures : Captures ν)
  | outOfFuel

variable {τ ν : Type} [Capturable τ ν]

/-- Binds `value` if there is a name for it. -/
def Captures.bindIf (captures : Captures ν) (name : Option String) (value : ν) : Captures ν :=
  match name with
  | some name => captures.bind name value
  | none => captures

/-- Closes a scope, if there is one to be closed. -/
def Captures.exitIf (captures : Captures ν) : Option ScopeToken → Except Error (Captures ν)
  | some scope => captures.exit scope
  | none => .ok captures

variable [DecidableEq τ]

/-- Tests a token.  If it passes, it is bound to the capture name in the innermost scope, and
then the names are bound that the test itself asks for. -/
def TokenTest.run (test : TokenTest τ ν) (capture : Option String) (token : τ)
    (captures : Captures ν) : Except Error (Option (Captures ν)) :=
  match test with
  | .literal value => .ok (keep (value = token))
  | .back name =>
    match captures.get name with
    | .ok value => .ok (keep (Capturable.isToken value token))
    | .error error => .error error
  | .oneOf options => .ok (keep (options.contains token))
  | .predicate decide =>
    match decide captures token with
    | .ok .reject => .ok none
    | .ok .accept => .ok (some bound)
    | .ok (.bind bindings) => .ok (some (bound.bindAll bindings))
    | .error error => .error error
where
  bound := captures.bindIf capture (Capturable.ofToken token)
  keep (passes : Bool) := if passes then some bound else none

namespace Cursor

/-- The next way in which the pattern of a cursor matches `sequence`. -/
def advance (sequence : Array τ) : (fuel : Nat) → Cursor τ ν → Captures ν → Advance τ ν
  | 0, _, _ => .outOfFuel
  | _ + 1, .spent, captures => .done .spent captures
  | _ + 1, .given scope, captures =>
    match captures.exit scope with
    | .ok captures => .done .spent captures
    | .error error => .failed error captures
  | _ + 1, .peeked scope, captures => .done .spent (captures.unwind scope)
  | _ + 1, .token test capture start, captures =>
    match sequence[start]? with
    | none => .done .spent captures
    | some item =>
      let (scope, entered) := captures.enter
      match test.run capture item entered with
      | .ok (some bound) => .way (start + 1) (.given scope) bound
      | .ok none =>
        match entered.exit scope with
        | .ok captures => .done .spent captures
        | .error error => .failed error entered
      | .error error => .failed error entered
  | _ + 1, .span lengths capture start scope, captures =>
    match captures.exitIf scope with
    | .error error => .failed error captures
    | .ok captures =>
      match lengths.dropWhile (fun length => sequence.size < start + length) with
      | [] => .done .spent captures
      | length :: rest =>
        let (scope, entered) := captures.enter
        let run := Capturable.ofRun (sequence.extract start (start + length)).toList
        .way (start + length) (.span rest capture start (some scope))
          (entered.bindIf capture run)
  | _ + 1, .atEnd start, captures =>
    if start < sequence.size then .done .spent captures else .way start .spent captures
  | fuel + 1, .lookahead inner hidden start, captures =>
    let (scope, entered) := captures.enter
    match advance sequence fuel (inner.cursor start) entered with
    | .way _ _ captures =>
      if hidden then .way start .spent (captures.unwind scope)
      else .way start (.peeked scope) captures
    | .done _ captures =>
      match captures.exit scope with
      | .ok captures => .done .spent captures
      | .error error => .failed error captures
    | .failed error captures => .failed error (captures.unwind scope)
    | .outOfFuel => .outOfFuel
  | fuel + 1, .choice (some (current, scope)) rest start, captures =>
    match advance sequence fuel current captures with
    | .way stop current captures => .way stop (.choice (some (current, scope)) rest start) captures
    | .done _ captures =>
      match captures.exit scope with
      | .ok captures => advance sequence fuel (.choice none rest start) captures
      | .error error => .failed error captures
    | .failed error captures => .failed error captures
    | .outOfFuel => .outOfFuel
  | _ + 1, .choice none [] _, captures => .done .spent captures
  | fuel + 1, .choice none (branch :: rest) start, captures =>
    let (scope, captures) := captures.enter
    advance sequence fuel (.choice (some (branch.cursor start, scope)) rest start) captures
  | fuel + 1, .trail pieces (some (position, agenda, wasGiven)), captures =>
    if agenda.isComplete && !wasGiven then
      .way position (.trail pieces (some (position, agenda, true))) captures
    else
      match agenda.next? with
      | none => advance sequence fuel (.trail pieces none) captures
      | some (piece, rest) =>
        let (scope, captures) := captures.enter
        advance sequence fuel (.trail ((piece.cursor position, scope, rest) :: pieces) none)
          captures
  | _ + 1, .trail [] none, captures => .done .spent captures
  | fuel + 1, .trail ((piece, scope, rest) :: pieces) none, captures =>
    match advance sequence fuel piece captures with
    | .way position piece captures =>
      advance sequence fuel
        (.trail ((piece, scope, rest) :: pieces) (some (position, rest, false))) captures
    | .done _ captures =>
      match captures.exit scope with
      | .ok captures => advance sequence fuel (.trail pieces none) captures
      | .error error => .failed error captures
    | .failed error captures => .failed error captures
    | .outOfFuel => .outOfFuel
  | fuel + 1, .weighted run position total scope, captures =>
    match captures.exitIf scope with
    | .error error => .failed error captures
    | .ok captures =>
      match sequence[position]? with
      | none => .done .spent captures
      | some item =>
        match run.weight item with
        | .error error => .failed error captures
        | .ok weight =>
          let total := total + weight
          if run.totals.accepts total then
            let (scope, entered) := captures.enter
            let bound :=
              match run.capture with
              | some (name, value) => entered.bind name (value total)
              | none => entered
            .way (position + 1) (.weighted run (position + 1) total (some scope)) bound
          else advance sequence fuel (.weighted run (position + 1) total none) captures

theorem advance_zero (sequence : Array τ) (cursor : Cursor τ ν) (captures : Captures ν) :
    cursor.advance sequence 0 captures = .outOfFuel := by
  rw [advance]

end Cursor
end StackCode
