import StackCode.Pattern.Cursor

/-!
What an advance can do, one rule for each thing.

The rules leave the fuel out, so that what every advance keeps is shown by induction on them: a case
is a rule, and its premises are what the cursor found.
-/

namespace StackCode

variable {τ ν : Type} [Capturable τ ν] [DecidableEq τ]

/-- An advance of a cursor over `sequence` can come to an outcome. -/
inductive Advances (sequence : Array τ) : Cursor τ ν → Captures ν → Advance τ ν → Prop where
  /-- Fuel can run out anywhere. -/
  | starved {cursor : Cursor τ ν} {captures : Captures ν} :
    Advances sequence cursor captures .outOfFuel
  | spent {captures : Captures ν} :
    Advances sequence .spent captures (.done .spent captures)
  | given {scope : ScopeToken} {captures closed : Captures ν}
    (hexit : captures.exit scope = .ok closed) :
    Advances sequence (.given scope) captures (.done .spent closed)
  | givenStuck {scope : ScopeToken} {captures : Captures ν} {error : Error}
    (hexit : captures.exit scope = .error error) :
    Advances sequence (.given scope) captures (.failed error captures)
  | peeked {scope : ScopeToken} {captures : Captures ν} :
    Advances sequence (.peeked scope) captures (.done .spent (captures.unwind scope))
  -- A single token.
  | tokenPast {test : TokenTest τ ν} {capture : Option String} {start : Nat}
    {captures : Captures ν} (hitem : sequence[start]? = none) :
    Advances sequence (.token test capture start) captures (.done .spent captures)
  | tokenWay {test : TokenTest τ ν} {capture : Option String} {start : Nat}
    {captures bound : Captures ν} {item : τ} (hitem : sequence[start]? = some item)
    (hrun : test.run capture item captures.enter.2 = .ok (some bound)) :
    Advances sequence (.token test capture start) captures
      (.way (start + 1) (.given captures.enter.1) bound)
  | tokenRejected {test : TokenTest τ ν} {capture : Option String} {start : Nat}
    {captures : Captures ν} {item : τ} (hitem : sequence[start]? = some item)
    (hrun : test.run capture item captures.enter.2 = .ok none) :
    Advances sequence (.token test capture start) captures
      (.done .spent { captures with fresh := captures.fresh + 1 })
  | tokenFailed {test : TokenTest τ ν} {capture : Option String} {start : Nat}
    {captures : Captures ν} {item : τ} {error : Error} (hitem : sequence[start]? = some item)
    (hrun : test.run capture item captures.enter.2 = .error error) :
    Advances sequence (.token test capture start) captures (.failed error captures.enter.2)
  -- Any tokens.
  | spanStuck {lengths : List Nat} {capture : Option String} {start : Nat}
    {scope : Option ScopeToken} {captures : Captures ν} {error : Error}
    (hexit : captures.exitIf scope = .error error) :
    Advances sequence (.span lengths capture start scope) captures (.failed error captures)
  | spanDone {lengths : List Nat} {capture : Option String} {start : Nat}
    {scope : Option ScopeToken} {captures closed : Captures ν}
    (hexit : captures.exitIf scope = .ok closed)
    (hfits : lengths.dropWhile (fun length => sequence.size < start + length) = []) :
    Advances sequence (.span lengths capture start scope) captures (.done .spent closed)
  | spanWay {lengths rest : List Nat} {length : Nat} {capture : Option String} {start : Nat}
    {scope : Option ScopeToken} {captures closed : Captures ν}
    (hexit : captures.exitIf scope = .ok closed)
    (hfits : lengths.dropWhile (fun length => sequence.size < start + length) = length :: rest) :
    Advances sequence (.span lengths capture start scope) captures
      (.way (start + length) (.span rest capture start (some closed.enter.1))
        (closed.enter.2.bindIf capture
          (Capturable.ofRun (sequence.extract start (start + length)).toList)))
  -- The end of the sequence.
  | inside {start : Nat} {captures : Captures ν} (hstart : start < sequence.size) :
    Advances sequence (.atEnd start) captures (.done .spent captures)
  | atEnd {start : Nat} {captures : Captures ν} (hstart : ¬ start < sequence.size) :
    Advances sequence (.atEnd start) captures (.way start .spent captures)
  -- Lookaheads.
  | hidden {inner : Pattern τ ν} {start stop : Nat} {captures opened : Captures ν}
    {cursor : Cursor τ ν}
    (hinner : Advances sequence (inner.cursor start) captures.enter.2 (.way stop cursor opened)) :
    Advances sequence (.lookahead inner true start) captures
      (.way start .spent (opened.unwind captures.enter.1))
  | shown {inner : Pattern τ ν} {start stop : Nat} {captures opened : Captures ν}
    {cursor : Cursor τ ν}
    (hinner : Advances sequence (inner.cursor start) captures.enter.2 (.way stop cursor opened)) :
    Advances sequence (.lookahead inner false start) captures
      (.way start (.peeked captures.enter.1) opened)
  | absent {inner : Pattern τ ν} {hidden : Bool} {start : Nat} {captures left closed : Captures ν}
    {cursor : Cursor τ ν}
    (hinner : Advances sequence (inner.cursor start) captures.enter.2 (.done cursor left))
    (hexit : left.exit captures.enter.1 = .ok closed) :
    Advances sequence (.lookahead inner hidden start) captures (.done .spent closed)
  | absentStuck {inner : Pattern τ ν} {hidden : Bool} {start : Nat} {captures left : Captures ν}
    {cursor : Cursor τ ν} {error : Error}
    (hinner : Advances sequence (inner.cursor start) captures.enter.2 (.done cursor left))
    (hexit : left.exit captures.enter.1 = .error error) :
    Advances sequence (.lookahead inner hidden start) captures (.failed error left)
  | lookaheadFailed {inner : Pattern τ ν} {hidden : Bool} {start : Nat}
    {captures left : Captures ν} {error : Error}
    (hinner : Advances sequence (inner.cursor start) captures.enter.2 (.failed error left)) :
    Advances sequence (.lookahead inner hidden start) captures
      (.failed error (left.unwind captures.enter.1))
  -- Choices.
  | branchWay {current next : Cursor τ ν} {scope : ScopeToken} {rest : List (Pattern τ ν)}
    {start stop : Nat} {captures opened : Captures ν}
    (hcurrent : Advances sequence current captures (.way stop next opened)) :
    Advances sequence (.choice (some (current, scope)) rest start) captures
      (.way stop (.choice (some (next, scope)) rest start) opened)
  | branchDone {current next : Cursor τ ν} {scope : ScopeToken} {rest : List (Pattern τ ν)}
    {start : Nat} {captures left closed : Captures ν} {outcome : Advance τ ν}
    (hcurrent : Advances sequence current captures (.done next left))
    (hexit : left.exit scope = .ok closed)
    (hrest : Advances sequence (.choice none rest start) closed outcome) :
    Advances sequence (.choice (some (current, scope)) rest start) captures outcome
  | branchStuck {current next : Cursor τ ν} {scope : ScopeToken} {rest : List (Pattern τ ν)}
    {start : Nat} {captures left : Captures ν} {error : Error}
    (hcurrent : Advances sequence current captures (.done next left))
    (hexit : left.exit scope = .error error) :
    Advances sequence (.choice (some (current, scope)) rest start) captures (.failed error left)
  | branchFailed {current : Cursor τ ν} {scope : ScopeToken} {rest : List (Pattern τ ν)}
    {start : Nat} {captures left : Captures ν} {error : Error}
    (hcurrent : Advances sequence current captures (.failed error left)) :
    Advances sequence (.choice (some (current, scope)) rest start) captures (.failed error left)
  | noBranch {start : Nat} {captures : Captures ν} :
    Advances sequence (.choice none [] start) captures (.done .spent captures)
  | branch {branch : Pattern τ ν} {rest : List (Pattern τ ν)} {start : Nat}
    {captures : Captures ν} {outcome : Advance τ ν}
    (hbranch : Advances sequence
      (.choice (some (branch.cursor start, captures.enter.1)) rest start) captures.enter.2
      outcome) :
    Advances sequence (.choice none (branch :: rest) start) captures outcome
  -- Chains and repetitions.
  | complete {pieces : List (Cursor τ ν × ScopeToken × Agenda τ ν)} {position : Nat}
    {agenda : Agenda τ ν} {wasGiven : Bool} {captures : Captures ν}
    (hdue : (agenda.isComplete && !wasGiven) = true) :
    Advances sequence (.trail pieces (some (position, agenda, wasGiven))) captures
      (.way position (.trail pieces (some (position, agenda, true))) captures)
  | back {pieces : List (Cursor τ ν × ScopeToken × Agenda τ ν)} {position : Nat}
    {agenda : Agenda τ ν} {wasGiven : Bool} {captures : Captures ν} {outcome : Advance τ ν}
    (hdue : ¬ (agenda.isComplete && !wasGiven) = true) (hnext : agenda.next? = none)
    (hback : Advances sequence (.trail pieces none) captures outcome) :
    Advances sequence (.trail pieces (some (position, agenda, wasGiven))) captures outcome
  | extend {pieces : List (Cursor τ ν × ScopeToken × Agenda τ ν)} {position : Nat}
    {agenda rest : Agenda τ ν} {wasGiven : Bool} {piece : Pattern τ ν} {captures : Captures ν}
    {outcome : Advance τ ν} (hdue : ¬ (agenda.isComplete && !wasGiven) = true)
    (hnext : agenda.next? = some (piece, rest))
    (hpiece : Advances sequence
      (.trail ((piece.cursor position, captures.enter.1, rest) :: pieces) none) captures.enter.2
      outcome) :
    Advances sequence (.trail pieces (some (position, agenda, wasGiven))) captures outcome
  | noPiece {captures : Captures ν} :
    Advances sequence (.trail [] none) captures (.done .spent captures)
  | pieceWay {piece next : Cursor τ ν} {scope : ScopeToken} {rest : Agenda τ ν}
    {pieces : List (Cursor τ ν × ScopeToken × Agenda τ ν)} {position : Nat}
    {captures opened : Captures ν} {outcome : Advance τ ν}
    (hpiece : Advances sequence piece captures (.way position next opened))
    (harrive : Advances sequence
      (.trail ((next, scope, rest) :: pieces) (some (position, rest, false))) opened outcome) :
    Advances sequence (.trail ((piece, scope, rest) :: pieces) none) captures outcome
  | pieceDone {piece next : Cursor τ ν} {scope : ScopeToken} {rest : Agenda τ ν}
    {pieces : List (Cursor τ ν × ScopeToken × Agenda τ ν)} {captures left closed : Captures ν}
    {outcome : Advance τ ν} (hpiece : Advances sequence piece captures (.done next left))
    (hexit : left.exit scope = .ok closed)
    (hback : Advances sequence (.trail pieces none) closed outcome) :
    Advances sequence (.trail ((piece, scope, rest) :: pieces) none) captures outcome
  | pieceStuck {piece next : Cursor τ ν} {scope : ScopeToken} {rest : Agenda τ ν}
    {pieces : List (Cursor τ ν × ScopeToken × Agenda τ ν)} {captures left : Captures ν}
    {error : Error} (hpiece : Advances sequence piece captures (.done next left))
    (hexit : left.exit scope = .error error) :
    Advances sequence (.trail ((piece, scope, rest) :: pieces) none) captures (.failed error left)
  | pieceFailed {piece : Cursor τ ν} {scope : ScopeToken} {rest : Agenda τ ν}
    {pieces : List (Cursor τ ν × ScopeToken × Agenda τ ν)} {captures left : Captures ν}
    {error : Error} (hpiece : Advances sequence piece captures (.failed error left)) :
    Advances sequence (.trail ((piece, scope, rest) :: pieces) none) captures (.failed error left)
  -- Weighted runs.
  | weightedStuck {run : WeightedRun τ ν} {position : Nat} {total : Int}
    {scope : Option ScopeToken} {captures : Captures ν} {error : Error}
    (hexit : captures.exitIf scope = .error error) :
    Advances sequence (.weighted run position total scope) captures (.failed error captures)
  | weightedPast {run : WeightedRun τ ν} {position : Nat} {total : Int}
    {scope : Option ScopeToken} {captures closed : Captures ν}
    (hexit : captures.exitIf scope = .ok closed) (hitem : sequence[position]? = none) :
    Advances sequence (.weighted run position total scope) captures (.done .spent closed)
  | weightedFailed {run : WeightedRun τ ν} {position : Nat} {total : Int}
    {scope : Option ScopeToken} {captures closed : Captures ν} {item : τ} {error : Error}
    (hexit : captures.exitIf scope = .ok closed) (hitem : sequence[position]? = some item)
    (hweight : run.weight item = .error error) :
    Advances sequence (.weighted run position total scope) captures (.failed error closed)
  | weightedWay {run : WeightedRun τ ν} {position : Nat} {total weight : Int}
    {scope : Option ScopeToken} {captures closed : Captures ν} {item : τ}
    (hexit : captures.exitIf scope = .ok closed) (hitem : sequence[position]? = some item)
    (hweight : run.weight item = .ok weight)
    (haccepts : run.totals.accepts (total + weight) = true) :
    Advances sequence (.weighted run position total scope) captures
      (.way (position + 1) (.weighted run (position + 1) (total + weight) (some closed.enter.1))
        (match run.capture with
          | some (name, value) => closed.enter.2.bind name (value (total + weight))
          | none => closed.enter.2))
  | weightedOn {run : WeightedRun τ ν} {position : Nat} {total weight : Int}
    {scope : Option ScopeToken} {captures closed : Captures ν} {item : τ}
    {outcome : Advance τ ν} (hexit : captures.exitIf scope = .ok closed)
    (hitem : sequence[position]? = some item) (hweight : run.weight item = .ok weight)
    (haccepts : ¬ run.totals.accepts (total + weight) = true)
    (hrest : Advances sequence (.weighted run (position + 1) (total + weight) none) closed
      outcome) :
    Advances sequence (.weighted run position total scope) captures outcome

/-- Every advance follows the rules. -/
theorem Cursor.advances (sequence : Array τ) (fuel : Nat) (cursor : Cursor τ ν)
    (captures : Captures ν) :
    Advances sequence cursor captures (cursor.advance sequence fuel captures) := by
  fun_induction Cursor.advance sequence fuel cursor captures with
  | case1 => exact .starved
  | case2 => exact .spent
  | case3 => exact .given ‹_›
  | case4 => exact .givenStuck ‹_›
  | case5 => exact .peeked
  | case6 => exact .tokenPast ‹_›
  | case7 _ _ _ _ _ _ hitem _ _ henter _ hrun =>
    cases henter
    exact .tokenWay hitem hrun
  | case8 _ _ _ _ _ _ hitem _ _ henter hrun _ hexit =>
    cases henter
    cases (Captures.exit_enter _).symm.trans hexit
    exact .tokenRejected hitem hrun
  | case9 _ _ _ _ _ _ hitem _ _ henter hrun _ hexit =>
    cases henter
    cases (Captures.exit_enter _).symm.trans hexit
  | case10 _ _ _ _ _ _ hitem _ _ henter _ hrun =>
    cases henter
    exact .tokenFailed hitem hrun
  | case11 => exact .spanStuck ‹_›
  | case12 _ _ _ _ _ _ _ hexit hfits => exact .spanDone hexit hfits
  | case13 _ _ _ _ _ _ _ hexit _ _ hfits _ _ henter _ =>
    cases henter
    exact .spanWay hexit hfits
  | case14 => exact .inside ‹_›
  | case15 => exact .atEnd ‹_›
  | case16 _ _ _ _ _ _ henter _ _ _ hinner ih =>
    cases henter
    exact .hidden (hinner ▸ ih)
  | case17 _ _ _ _ _ _ _ henter _ _ _ hinner hshown ih =>
    cases henter
    rw [Bool.eq_false_iff.mpr hshown]
    exact .shown (hinner ▸ ih)
  | case18 _ _ _ _ _ _ _ henter _ _ hinner _ hexit ih =>
    cases henter
    exact .absent (hinner ▸ ih) hexit
  | case19 _ _ _ _ _ _ _ henter _ _ hinner _ hexit ih =>
    cases henter
    exact .absentStuck (hinner ▸ ih) hexit
  | case20 _ _ _ _ _ _ _ henter _ _ hinner ih =>
    cases henter
    exact .lookaheadFailed (hinner ▸ ih)
  | case21 => exact .starved
  | case22 _ _ _ _ _ _ _ _ _ hcurrent ih => exact .branchWay (hcurrent ▸ ih)
  | case23 _ _ _ _ _ _ _ _ hcurrent _ hexit ih ihrest =>
    exact .branchDone (hcurrent ▸ ih) hexit ihrest
  | case24 _ _ _ _ _ _ _ _ hcurrent _ hexit ih => exact .branchStuck (hcurrent ▸ ih) hexit
  | case25 _ _ _ _ _ _ _ _ hcurrent ih => exact .branchFailed (hcurrent ▸ ih)
  | case26 => exact .starved
  | case27 => exact .noBranch
  | case28 _ _ _ _ _ _ _ henter ih =>
    cases henter
    exact .branch ih
  | case29 => exact .complete ‹_›
  | case30 _ _ _ _ _ _ hdue hnext ih => exact .back hdue hnext ih
  | case31 _ _ _ _ _ _ hdue _ _ hnext _ _ henter ih =>
    cases henter
    exact .extend hdue hnext ih
  | case32 => exact .noPiece
  | case33 _ _ _ _ _ _ _ _ _ hpiece ih iharrive => exact .pieceWay (hpiece ▸ ih) iharrive
  | case34 _ _ _ _ _ _ _ _ hpiece _ hexit ih ihback =>
    exact .pieceDone (hpiece ▸ ih) hexit ihback
  | case35 _ _ _ _ _ _ _ _ hpiece _ hexit ih => exact .pieceStuck (hpiece ▸ ih) hexit
  | case36 _ _ _ _ _ _ _ _ hpiece ih => exact .pieceFailed (hpiece ▸ ih)
  | case37 => exact .starved
  | case38 => exact .weightedStuck ‹_›
  | case39 _ _ _ _ _ _ _ hexit hitem => exact .weightedPast hexit hitem
  | case40 _ _ _ _ _ _ _ hexit _ hitem _ hweight => exact .weightedFailed hexit hitem hweight
  | case41 _ _ _ _ _ _ _ hexit _ hitem _ hweight _ haccepts _ _ henter _ =>
    cases henter
    exact .weightedWay hexit hitem hweight haccepts
  | case42 _ _ _ _ _ _ _ hexit _ hitem _ hweight _ haccepts ih =>
    exact .weightedOn hexit hitem hweight haccepts ih

end StackCode
