import StackCode.Pattern.Enumeration
import StackCode.Pattern.Matcher

/-!
Matching only looks ahead.  What stands in front of a place moves the ends of the ways found there,
and changes nothing else about them.
-/

namespace StackCode

variable {τ ν : Type}

/-! ## Cursors further on -/

mutual

/-- The cursor with `offset` tokens more in front of it. -/
def Cursor.shift (offset : Nat) : Cursor τ ν → Cursor τ ν
  | .spent => .spent
  | .given scope => .given scope
  | .peeked scope => .peeked scope
  | .token test capture start => .token test capture (offset + start)
  | .span lengths capture start scope => .span lengths capture (offset + start) scope
  | .atEnd start => .atEnd (offset + start)
  | .lookahead inner hidden start => .lookahead inner hidden (offset + start)
  | .choice none rest start => .choice none rest (offset + start)
  | .choice (some (current, scope)) rest start =>
    .choice (some (current.shift offset, scope)) rest (offset + start)
  | .trail pieces arrival =>
    .trail (Cursor.shiftAll offset pieces)
      (arrival.map fun (position, agenda, wasGiven) => (offset + position, agenda, wasGiven))
  | .weighted run position total scope => .weighted run (offset + position) total scope

def Cursor.shiftAll (offset : Nat) :
    List (Cursor τ ν × ScopeToken × Agenda τ ν) → List (Cursor τ ν × ScopeToken × Agenda τ ν)
  | [] => []
  | (piece, scope, rest) :: pieces =>
    (piece.shift offset, scope, rest) :: Cursor.shiftAll offset pieces

end

attribute [local simp] Cursor.shift Cursor.shiftAll

/-- The outcome with `offset` tokens more in front of it. -/
def Advance.shift (offset : Nat) : Advance τ ν → Advance τ ν
  | .way stop cursor captures => .way (offset + stop) (cursor.shift offset) captures
  | .done cursor captures => .done (cursor.shift offset) captures
  | .failed error captures => .failed error captures
  | .outOfFuel => .outOfFuel

section Outcomes

variable (offset : Nat) (cursor : Cursor τ ν) (captures : Captures ν)

@[simp] theorem Advance.shift_way (stop : Nat) : (way stop cursor captures).shift offset =
    way (offset + stop) (cursor.shift offset) captures := rfl

@[simp] theorem Advance.shift_done :
    (done cursor captures).shift offset = done (cursor.shift offset) captures := rfl

@[simp] theorem Advance.shift_failed (error : Error) :
    (failed error captures : Advance τ ν).shift offset = failed error captures := rfl

@[simp] theorem Advance.shift_outOfFuel :
    (outOfFuel : Advance τ ν).shift offset = outOfFuel := rfl

end Outcomes

theorem Pattern.cursor_shift (pattern : Pattern τ ν) (offset start : Nat) :
    (pattern.cursor start).shift offset = pattern.cursor (offset + start) := by
  cases pattern with
  | repeated inner min max step =>
    rw [cursor, cursor]
    split
    · rw [Cursor.shift]
    · rw [Cursor.shift, Cursor.shiftAll]
      rfl
  | chain parts =>
    rw [cursor, cursor, Cursor.shift, Cursor.shiftAll]
    rfl
  | _ => rw [cursor, cursor, Cursor.shift]

/-! ## Sequences further on -/

theorem getElem?_append_size {front tokens : Array τ} (index : Nat) :
    (front ++ tokens)[front.size + index]? = tokens[index]? := by
  rw [Array.getElem?_append_right (Nat.le_add_right _ _), Nat.add_sub_cancel_left]

theorem extract_append_size {front tokens : Array τ} (start stop : Nat) :
    (front ++ tokens).extract (front.size + start) (front.size + stop) =
      tokens.extract start stop := by
  rw [Array.extract_append, Nat.add_sub_cancel_left, Nat.add_sub_cancel_left,
    Array.extract_empty_of_size_le_start (Nat.le_add_right _ _), Array.empty_append]

variable [Capturable τ ν] [DecidableEq τ]

theorem Cursor.advance_token_append (front tokens : Array τ) (fuel : Nat) (test : TokenTest τ ν)
    (capture : Option String) (start : Nat) (captures : Captures ν) :
    (shift front.size (.token test capture start)).advance (front ++ tokens) (fuel + 1) captures =
      (advance tokens (fuel + 1) (.token test capture start) captures).shift front.size := by
  rw [shift, advance, advance, getElem?_append_size]
  cases tokens[start]? with
  | none => simp
  | some item =>
    obtain ⟨scope, entered⟩ := captures.enter
    simp only
    cases test.run capture item entered with
    | error error => rfl
    | ok bound =>
      cases bound with
      | some bound => simp [Nat.add_assoc]
      | none =>
        simp only
        cases entered.exit scope with
        | ok closed => simp
        | error error => rfl

theorem Cursor.advance_span_append (front tokens : Array τ) (fuel : Nat) (lengths : List Nat)
    (capture : Option String) (start : Nat) (scope : Option ScopeToken) (captures : Captures ν) :
    (shift front.size (.span lengths capture start scope : Cursor τ ν)).advance (front ++ tokens)
        (fuel + 1) captures =
      (advance tokens (fuel + 1) (.span lengths capture start scope) captures).shift
        front.size := by
  rw [shift, advance, advance]
  cases captures.exitIf scope with
  | error error => rfl
  | ok closed =>
    have hfits : (fun length => decide ((front ++ tokens).size < front.size + start + length)) =
        fun length => decide (tokens.size < start + length) := by
      funext length
      rw [Nat.add_assoc, Array.size_append]
      exact decide_eq_decide.mpr Nat.add_lt_add_iff_left
    simp only [hfits]
    cases lengths.dropWhile fun length => tokens.size < start + length with
    | nil => simp
    | cons length rest =>
      simp only [Advance.shift_way, shift, Nat.add_assoc, extract_append_size]

theorem Cursor.advance_atEnd_append (front tokens : Array τ) (fuel start : Nat)
    (captures : Captures ν) :
    (shift front.size (.atEnd start : Cursor τ ν)).advance (front ++ tokens) (fuel + 1) captures =
      (advance tokens (fuel + 1) (.atEnd start) captures).shift front.size := by
  have hstart : front.size + start < (front ++ tokens).size ↔ start < tokens.size := by
    rw [Array.size_append, Nat.add_lt_add_iff_left]
  rw [shift, advance, advance]
  simp only [hstart]
  split
  · simp
  · simp

section Inner

-- These cursors advance others, with one unit of fuel less.
variable {front tokens : Array τ} {fuel : Nat}
  (ih : ∀ (cursor : Cursor τ ν) (captures : Captures ν),
    (cursor.shift front.size).advance (front ++ tokens) fuel captures =
      (cursor.advance tokens fuel captures).shift front.size)

include ih

theorem Cursor.advance_lookahead_append (inner : Pattern τ ν) (hidden : Bool) (start : Nat)
    (captures : Captures ν) :
    (shift front.size (.lookahead inner hidden start)).advance (front ++ tokens) (fuel + 1)
        captures =
      (advance tokens (fuel + 1) (.lookahead inner hidden start) captures).shift front.size := by
  rw [shift, advance, advance, ← inner.cursor_shift]
  obtain ⟨scope, entered⟩ := captures.enter
  simp only [ih]
  cases (inner.cursor start).advance tokens fuel entered with
  | way stop cursor opened =>
    cases hidden with
    | true => simp
    | false => simp
  | done cursor left =>
    simp only [Advance.shift_done]
    cases left.exit scope with
    | ok closed => simp
    | error error => rfl
  | failed error left => rfl
  | outOfFuel => rfl

theorem Cursor.advance_choice_append (current : Option (Cursor τ ν × ScopeToken))
    (rest : List (Pattern τ ν)) (start : Nat) (captures : Captures ν) :
    (shift front.size (.choice current rest start)).advance (front ++ tokens) (fuel + 1)
        captures =
      (advance tokens (fuel + 1) (.choice current rest start) captures).shift front.size := by
  cases current with
  | some current =>
    obtain ⟨current, scope⟩ := current
    rw [shift, advance, advance, ih]
    cases current.advance tokens fuel captures with
    | way stop next opened => simp
    | done next left =>
      simp only [Advance.shift_done]
      cases left.exit scope with
      | ok closed =>
        simp only
        rw [← ih, shift]
      | error error => rfl
    | failed error left => rfl
    | outOfFuel => rfl
  | none =>
    cases rest with
    | nil => rw [shift, advance, advance, Advance.shift_done, shift]
    | cons branch rest =>
      rw [shift, advance, advance]
      obtain ⟨scope, entered⟩ := captures.enter
      simp only
      rw [← ih, shift, Pattern.cursor_shift]

theorem Cursor.advance_arrival_append (pieces : List (Cursor τ ν × ScopeToken × Agenda τ ν))
    (arrival : Nat × Agenda τ ν × Bool) (captures : Captures ν) :
    (shift front.size (.trail pieces (some arrival))).advance (front ++ tokens) (fuel + 1)
        captures =
      (advance tokens (fuel + 1) (.trail pieces (some arrival)) captures).shift front.size := by
  obtain ⟨position, agenda, wasGiven⟩ := arrival
  rw [shift, Option.map_some, advance, advance]
  split
  · simp
  · cases agenda.next? with
    | none =>
      simp only
      rw [← ih, shift, Option.map_none]
    | some next =>
      obtain ⟨piece, rest⟩ := next
      obtain ⟨scope, entered⟩ := captures.enter
      simp only
      rw [← ih, shift, shiftAll, Pattern.cursor_shift, Option.map_none]

theorem Cursor.advance_pieces_append (pieces : List (Cursor τ ν × ScopeToken × Agenda τ ν))
    (captures : Captures ν) :
    (shift front.size (.trail pieces none)).advance (front ++ tokens) (fuel + 1) captures =
      (advance tokens (fuel + 1) (.trail pieces none) captures).shift front.size := by
  cases pieces with
  | nil => rw [shift, shiftAll, Option.map_none, advance, advance, Advance.shift_done, shift]
  | cons piece pieces =>
    obtain ⟨piece, scope, rest⟩ := piece
    rw [shift, shiftAll, Option.map_none, advance, advance, ih]
    cases piece.advance tokens fuel captures with
    | way position next opened =>
      simp only [Advance.shift_way]
      rw [← ih, shift, shiftAll, Option.map_some]
    | done next left =>
      simp only [Advance.shift_done]
      cases left.exit scope with
      | ok closed =>
        simp only
        rw [← ih, shift, Option.map_none]
      | error error => rfl
    | failed error left => rfl
    | outOfFuel => rfl

theorem Cursor.advance_weighted_append (run : WeightedRun τ ν) (position : Nat) (total : Int)
    (scope : Option ScopeToken) (captures : Captures ν) :
    (shift front.size (.weighted run position total scope)).advance (front ++ tokens) (fuel + 1)
        captures =
      (advance tokens (fuel + 1) (.weighted run position total scope) captures).shift
        front.size := by
  rw [shift, advance, advance, getElem?_append_size]
  cases captures.exitIf scope with
  | error error => rfl
  | ok closed =>
    cases tokens[position]? with
    | none => simp
    | some item =>
      simp only
      cases run.weight item with
      | error error => rfl
      | ok weight =>
        simp only
        split
        · simp [Nat.add_assoc]
        · rw [← ih, shift, Nat.add_assoc]

end Inner

/-- An advance with more tokens in front is the same one, further on. -/
theorem Cursor.advance_append (front tokens : Array τ) :
    ∀ (fuel : Nat) (cursor : Cursor τ ν) (captures : Captures ν),
      (cursor.shift front.size).advance (front ++ tokens) fuel captures =
        (cursor.advance tokens fuel captures).shift front.size := by
  -- Both advances look at the same token in every step, and go on from cursors that are still
  -- shifted by the same number.
  intro fuel
  induction fuel with
  | zero =>
    intro cursor captures
    rw [Cursor.advance_zero, Cursor.advance_zero]
    rfl
  | succ fuel ih =>
    intro cursor captures
    cases cursor with
    | spent => rw [shift, advance, advance, Advance.shift_done, shift]
    | given scope =>
      rw [shift, advance, advance]
      cases captures.exit scope with
      | ok closed => simp
      | error error => rfl
    | peeked scope => rw [shift, advance, advance, Advance.shift_done, shift]
    | token test capture start =>
      exact advance_token_append front tokens fuel test capture start captures
    | span lengths capture start scope =>
      exact advance_span_append front tokens fuel lengths capture start scope captures
    | atEnd start => exact advance_atEnd_append front tokens fuel start captures
    | lookahead inner hidden start => exact advance_lookahead_append ih inner hidden start captures
    | choice current rest start => exact advance_choice_append ih current rest start captures
    | trail pieces arrival =>
      cases arrival with
      | some arrival => exact advance_arrival_append ih pieces arrival captures
      | none => exact advance_pieces_append ih pieces captures
    | weighted run position total scope =>
      exact advance_weighted_append ih run position total scope captures

/-! ## Enumerations further on -/

/-- The ending with `offset` tokens more in front of it. -/
def Ending.shift (offset : Nat) : Ending τ ν → Ending τ ν
  | .limit captures => .limit captures
  | .done cursor captures => .done (cursor.shift offset) captures
  | .failed error captures => .failed error captures
  | .outOfFuel => .outOfFuel

/-- The enumeration with `offset` tokens more in front of it. -/
def Ending.shiftWays (offset : Nat) (enumeration : List (Nat × Captures ν) × Ending τ ν) :
    List (Nat × Captures ν) × Ending τ ν :=
  (enumeration.1.map fun (stop, captures) => (offset + stop, captures), enumeration.2.shift offset)

/-- Advances one after the other are the same ones, further on. -/
theorem Cursor.ways_append (front tokens : Array τ) (fuel : Nat) :
    ∀ (limit : Nat) (cursor : Cursor τ ν) (captures : Captures ν),
      (cursor.shift front.size).ways (front ++ tokens) fuel limit captures =
        Ending.shiftWays front.size (cursor.ways tokens fuel limit captures) := by
  intro limit
  induction limit with
  | zero => exact fun _ _ => rfl
  | succ limit ih =>
    intro cursor captures
    rw [ways, ways, advance_append]
    cases cursor.advance tokens fuel captures with
    | way stop next opened =>
      simp only [Advance.shift_way, ih]
      rfl
    | done next left => rfl
    | failed error left => rfl
    | outOfFuel => rfl

/-! ## Matches further on -/

/-- The match with `offset` tokens more in front of it. -/
def Match.shift (offset : Nat) (found : Match ν) : Match ν :=
  { found with start := offset + found.start, stop := offset + found.stop }

/-- The answer with `offset` tokens more in front of it. -/
def Match.shiftAnswer (offset : Nat) (answer : Except Halt (Option (Match ν))) :
    Except Halt (Option (Match ν)) :=
  answer.map (Option.map (Match.shift offset))

namespace Matcher

theorem firstWay_append (front tokens : Array τ) (start : Nat) {accepts accepts' : Nat → Bool}
    (haccepts : ∀ stop, accepts' (front.size + stop) = accepts stop) :
    ∀ (fuel : Nat) (cursor : Cursor τ ν) (captures : Captures ν),
      firstWay (front ++ tokens) (front.size + start) accepts' fuel (cursor.shift front.size)
          captures =
        Match.shiftAnswer front.size (firstWay tokens start accepts fuel cursor captures) := by
  intro fuel
  induction fuel with
  | zero => exact fun _ _ => rfl
  | succ fuel ih =>
    intro cursor captures
    rw [firstWay, firstWay, Cursor.advance_append]
    cases cursor.advance tokens fuel captures with
    | way stop next opened =>
      simp only [Advance.shift_way, haccepts]
      split
      · rfl
      · exact ih next opened
    | done next left => rfl
    | failed error left => rfl
    | outOfFuel => rfl

theorem longestWay_append (front tokens : Array τ) (start : Nat) :
    ∀ (fuel : Nat) (best : Option (Match ν)) (cursor : Cursor τ ν) (captures : Captures ν),
      longestWay (front ++ tokens) (front.size + start) (best.map (Match.shift front.size)) fuel
          (cursor.shift front.size) captures =
        Match.shiftAnswer front.size (longestWay tokens start best fuel cursor captures) := by
  intro fuel
  induction fuel with
  | zero => exact fun _ _ _ => rfl
  | succ fuel ih =>
    intro best cursor captures
    rw [longestWay, longestWay, Cursor.advance_append]
    cases cursor.advance tokens fuel captures with
    | way stop next opened =>
      simp only [Advance.shift_way]
      rw [← ih]
      congr 1
      cases best with
      | none => rfl
      | some best =>
        simp only [Option.map_some, Option.any_some, Match.shift, Nat.add_le_add_iff_left]
        split <;> rfl
    | done next left => rfl
    | failed error left => rfl
    | outOfFuel => rfl

variable (matcher : Matcher τ ν) (fuel : Nat) (front tokens : Array τ)

theorem matchAt_append (start : Nat) :
    matcher.matchAt fuel (front ++ tokens) (front.size + start) =
      Match.shiftAnswer front.size (matcher.matchAt fuel tokens start) := by
  rw [matchAt, matchAt]
  simp only [← Pattern.cursor_shift]
  cases matcher.strategy with
  | first => exact firstWay_append front tokens start (fun _ => rfl) fuel _ _
  | longest => exact longestWay_append front tokens start fuel none _ _

/-- What stands in front of the start of a match only moves it.  The answer is the same, and so are
the ways it is chosen from and each advance of a cursor, wherever the cursor has come to. -/
theorem matchAt_independent (start : Nat) :
    matcher.matchAt fuel (front ++ tokens) (front.size + start) =
        Match.shiftAnswer front.size (matcher.matchAt fuel tokens start) ∧
      (∀ limit captures,
        (matcher.pattern.cursor (front.size + start)).ways (front ++ tokens) fuel limit captures =
          Ending.shiftWays front.size
            ((matcher.pattern.cursor start).ways tokens fuel limit captures)) ∧
      ∀ (cursor : Cursor τ ν) (captures : Captures ν),
        (cursor.shift front.size).advance (front ++ tokens) fuel captures =
          (cursor.advance tokens fuel captures).shift front.size := by
  refine ⟨matcher.matchAt_append fuel front tokens start, fun limit captures => ?_,
    Cursor.advance_append front tokens fuel⟩
  rw [← Pattern.cursor_shift, Cursor.ways_append]

theorem searchIn_append :
    ∀ count start, matcher.searchIn fuel (front ++ tokens) count (front.size + start) =
      Match.shiftAnswer front.size (matcher.searchIn fuel tokens count start) := by
  intro count
  induction count with
  | zero => exact fun _ => rfl
  | succ count ih =>
    intro start
    rw [searchIn, searchIn, matchAt_append]
    cases matcher.matchAt fuel tokens start with
    | error halt => rfl
    | ok answer =>
      cases answer with
      | none => exact ih (start + 1)
      | some found => rfl

/-- A search that starts behind the tokens in front does not depend on them. -/
theorem searchFrom_append (start : Nat) :
    matcher.searchFrom fuel (front ++ tokens) (front.size + start) =
      Match.shiftAnswer front.size (matcher.searchFrom fuel tokens start) := by
  rw [searchFrom, searchFrom, Array.size_append, Nat.add_sub_add_left]
  exact searchIn_append matcher fuel front tokens _ start

end Matcher
end StackCode
