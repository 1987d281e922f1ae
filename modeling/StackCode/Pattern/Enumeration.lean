import StackCode.Pattern.Cursor

/-!
Enumerations: the ways that a cursor gives one after the other.
-/

namespace StackCode

/-- Why an enumeration ended. -/
inductive Ending (τ ν : Type) where
  /-- As many ways were given as were asked for. -/
  | limit (captures : Captures ν)
  /-- There are no further ways. -/
  | done (cursor : Cursor τ ν) (captures : Captures ν)
  | failed (error : Error) (captures : Captures ν)
  | outOfFuel

variable {τ ν : Type} [Capturable τ ν] [DecidableEq τ]

/-- At most `limit` ways of a cursor, each with its end and the captures there. -/
def Cursor.ways (sequence : Array τ) (fuel : Nat) :
    (limit : Nat) → Cursor τ ν → Captures ν → List (Nat × Captures ν) × Ending τ ν
  | 0, _, captures => ([], .limit captures)
  | limit + 1, cursor, captures =>
    match cursor.advance sequence fuel captures with
    | .way stop cursor captures =>
      let (rest, ending) := Cursor.ways sequence fuel limit cursor captures
      ((stop, captures) :: rest, ending)
    | .done cursor captures => ([], .done cursor captures)
    | .failed error captures => ([], .failed error captures)
    | .outOfFuel => ([], .outOfFuel)

end StackCode
