import StackCode.Pattern.Cursor

/-!
Matchers: a pattern together with a rule that chooses among the ways in which it matches at a
place.  Every match works on captures of its own.

Enumerating the ways of a pattern need not end, so everything here takes fuel and tells running
out of it apart from failing.
-/

namespace StackCode

/-- How a match is chosen among the ways at a place. -/
inductive Strategy where
  | first
  /-- The way with the greatest end, the earliest one of those. -/
  | longest
  deriving DecidableEq, Repr, Inhabited

/-- A successful match, with the bindings that were visible at its end. -/
structure Match (ν : Type) where
  start : Nat
  stop : Nat
  captures : Bindings ν

/-- Why there is no answer. -/
inductive Halt where
  | error (error : Error)
  | outOfFuel
  deriving DecidableEq, Repr

namespace Match

variable {ν : Type}

def size (found : Match ν) : Nat := found.stop - found.start

def isEmpty (found : Match ν) : Bool := found.stop = found.start

def get? (found : Match ν) (name : String) : Option ν := found.captures.lookup name

end Match

/-- A pattern and the rule by which its matches are chosen. -/
structure Matcher (τ ν : Type) where
  pattern : Pattern τ ν
  strategy : Strategy

namespace Matcher

variable {τ ν : Type} [Capturable τ ν] [DecidableEq τ]

/-- The first way of `cursor` with an end that `accepts`. -/
def firstWay (sequence : Array τ) (start : Nat) (accepts : Nat → Bool) :
    (fuel : Nat) → Cursor τ ν → Captures ν → Except Halt (Option (Match ν))
  | 0, _, _ => .error .outOfFuel
  | fuel + 1, cursor, captures =>
    match cursor.advance sequence fuel captures with
    | .way stop cursor captures =>
      if accepts stop then .ok (some { start, stop, captures := captures.snapshot })
      else firstWay sequence start accepts fuel cursor captures
    | .done _ _ => .ok none
    | .failed error _ => .error (.error error)
    | .outOfFuel => .error .outOfFuel

/-- The way of `cursor` with the greatest end, if it ends behind `best`. -/
def longestWay (sequence : Array τ) (start : Nat) (best : Option (Match ν)) :
    (fuel : Nat) → Cursor τ ν → Captures ν → Except Halt (Option (Match ν))
  | 0, _, _ => .error .outOfFuel
  | fuel + 1, cursor, captures =>
    match cursor.advance sequence fuel captures with
    | .way stop cursor captures =>
      let best :=
        if best.any (stop ≤ ·.stop) then best
        else some { start, stop, captures := captures.snapshot }
      longestWay sequence start best fuel cursor captures
    | .done _ _ => .ok best
    | .failed error _ => .error (.error error)
    | .outOfFuel => .error .outOfFuel

/-- The captures that a match starts with: those of a new store, inside one scope. -/
def freshCaptures : Captures ν := Captures.empty.enter.2

/-- A match that starts at `start`. -/
def matchAt (matcher : Matcher τ ν) (fuel : Nat) (sequence : Array τ) (start : Nat) :
    Except Halt (Option (Match ν)) :=
  let cursor := matcher.pattern.cursor start
  match matcher.strategy with
  | .first => firstWay sequence start (fun _ => true) fuel cursor freshCaptures
  | .longest => longestWay sequence start none fuel cursor freshCaptures

/-- A match at the front of the sequence. -/
def matchFront (matcher : Matcher τ ν) (fuel : Nat) (sequence : Array τ) :
    Except Halt (Option (Match ν)) :=
  matcher.matchAt fuel sequence 0

/-- The first way to match the whole sequence, whatever the strategy. -/
def matchAll (matcher : Matcher τ ν) (fuel : Nat) (sequence : Array τ) :
    Except Halt (Option (Match ν)) :=
  firstWay sequence 0 (fun stop => sequence.size ≤ stop) fuel (matcher.pattern.cursor 0)
    freshCaptures

/-- The leftmost match at one of the `count` places from `start` on. -/
def searchIn (matcher : Matcher τ ν) (fuel : Nat) (sequence : Array τ) :
    (count start : Nat) → Except Halt (Option (Match ν))
  | 0, _ => .ok none
  | count + 1, start =>
    match matcher.matchAt fuel sequence start with
    | .ok none => searchIn matcher fuel sequence count (start + 1)
    | answer => answer

/-- The leftmost match that starts at or behind `start`. -/
def searchFrom (matcher : Matcher τ ν) (fuel : Nat) (sequence : Array τ) (start : Nat) :
    Except Halt (Option (Match ν)) :=
  matcher.searchIn fuel sequence (sequence.size - start) start

def search (matcher : Matcher τ ν) (fuel : Nat) (sequence : Array τ) :
    Except Halt (Option (Match ν)) :=
  matcher.searchFrom fuel sequence 0

/-- At most `limit` matches from left to right, from `position` on.  The search goes on at the
end of each match, but at least one token behind its start; overlapping matches only ask for the
latter.  Nothing is tried behind an error. -/
def findFrom (matcher : Matcher τ ν) (fuel : Nat) (sequence : Array τ) (overlapping : Bool) :
    (limit position : Nat) → List (Except Halt (Match ν))
  | 0, _ => []
  | limit + 1, position =>
    match matcher.searchFrom fuel sequence position with
    | .ok none => []
    | .ok (some found) =>
      let next := if overlapping then found.start + 1 else max found.stop (found.start + 1)
      .ok found :: findFrom matcher fuel sequence overlapping limit next
    | .error halt => [.error halt]

/-- The matches from left to right. -/
def findAll (matcher : Matcher τ ν) (fuel : Nat) (sequence : Array τ) (overlapping : Bool) :
    List (Except Halt (Match ν)) :=
  matcher.findFrom fuel sequence overlapping sequence.size 0

end Matcher
end StackCode
