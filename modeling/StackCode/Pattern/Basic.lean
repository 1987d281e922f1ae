import StackCode.Pattern.Captures

/-!
Patterns over sequences of tokens.  A pattern is plain data; matching it is the work of cursors.
-/

namespace StackCode

/-- Values of type `ν` that a match over tokens of type `τ` can bind. -/
class Capturable (τ : Type) (ν : outParam Type) where
  /-- The value of a single token. -/
  ofToken : τ → ν
  /-- The value of a run of tokens. -/
  ofRun : List τ → ν
  /-- The value, read back as a token, is this one. -/
  isToken : ν → τ → Bool

/-- What is captured where nothing else is said: a token or a run of them. -/
inductive Captured (τ : Type) where
  | token (token : τ)
  | run (tokens : List τ)
  deriving DecidableEq, Repr

instance {τ : Type} [DecidableEq τ] : Capturable τ (Captured τ) where
  ofToken := .token
  ofRun := .run
  isToken
    | .token value, token => value = token
    | .run values, token => values = [token]

/-- The answer of a predicate about a token. -/
inductive Verdict (ν : Type) where
  | reject
  | accept
  /-- Accepts the token and binds names. -/
  | bind (bindings : List (String × ν))

/-- A condition on a single token. -/
inductive TokenTest (τ ν : Type) where
  | literal (token : τ)
  /-- The token that `name` is bound to. -/
  | back (name : String)
  | oneOf (options : List τ)
  | predicate (decide : Captures ν → τ → Except Error (Verdict ν))

/-- Which totals a weighted run may have. -/
inductive Totals where
  | oneOf (totals : List Int)
  | predicate (accepts : Int → Bool)

namespace Totals

def accepts : Totals → Int → Bool
  | .oneOf totals, total => totals.contains total
  | .predicate accepts, total => accepts total

def outline : Totals → String
  | .oneOf totals => Text.call "Values" [Text.list (totals.map toString)]
  | .predicate _ => "Predicate(..)"

end Totals

/-- A run of at least one token, the weights of which add up to an accepted total. -/
structure WeightedRun (τ ν : Type) where
  weight : τ → Except Error Int
  totals : Totals
  /-- The name of the total, and the value that it is bound as. -/
  capture : Option (String × (Int → ν))

/-- A pattern over tokens of type `τ` that binds values of type `ν`. -/
inductive Pattern (τ ν : Type) where
  | token (test : TokenTest τ ν) (capture : Option String)
  /-- Any tokens, as many as one of `lengths`, tried in order. -/
  | span (lengths : List Nat) (capture : Option String)
  /-- The end of the sequence. -/
  | atEnd
  /-- Checks for `inner` without consuming tokens. -/
  | lookahead (inner : Pattern τ ν) (hidden : Bool)
  /-- One of the branches, tried in order. -/
  | choice (branches : List (Pattern τ ν))
  /-- The parts one after the other. -/
  | chain (parts : List (Pattern τ ν))
  /-- `inner` repeated `min` to `max` times, in steps of `step`. -/
  | repeated (inner : Pattern τ ν) (min : Nat) (max : Option Nat) (step : Nat)
  | weighted (run : WeightedRun τ ν)

/-- An end of a range of counts. -/
inductive Bound where
  | included (count : Nat)
  | excluded (count : Nat)
  | unbounded
  deriving DecidableEq, Repr

/-- The greatest count.  Counts fit 64 bits. -/
def Bound.maxCount : Nat := 0xffffffffffffffff

/-- The least count that a lower end admits.  There is no count behind the greatest one, so that
an end that excludes it admits it. -/
def Bound.least : Bound → Nat
  | included count => count
  | excluded count => Nat.min maxCount (count + 1)
  | unbounded => 0

namespace Pattern

variable {τ ν : Type}

def literal (token : τ) : Pattern τ ν := .token (.literal token) none

/-- The token that `name` is bound to. -/
def back (name : String) : Pattern τ ν := .token (.back name) none

def anyOf (options : List τ) : Pattern τ ν := .token (.oneOf options) none

def satisfying (decide : Captures ν → τ → Except Error (Verdict ν)) : Pattern τ ν :=
  .token (.predicate decide) none

/-- Exactly one token. -/
def any : Pattern τ ν := .span [1] none

/-- Binds what the pattern matches to `name`.  Only single tokens and spans can be bound; other
patterns stay as they are. -/
def capture (name : String) : Pattern τ ν → Pattern τ ν
  | .token test _ => .token test (some name)
  | .span lengths _ => .span lengths (some name)
  | pattern => pattern

/-- The parts of a chain, or the pattern itself. -/
def parts : Pattern τ ν → List (Pattern τ ν)
  | .chain parts => parts
  | pattern => [pattern]

/-- The branches of a choice, or the pattern itself. -/
def branches : Pattern τ ν → List (Pattern τ ν)
  | .choice branches => branches
  | pattern => [pattern]

/-- One pattern after the other. -/
def append (first second : Pattern τ ν) : Pattern τ ν := .chain (first.parts ++ second.parts)

/-- One pattern or else the other. -/
def orElse (first second : Pattern τ ν) : Pattern τ ν :=
  .choice (first.branches ++ second.branches)

instance : Append (Pattern τ ν) := ⟨append⟩

/-- Every `step`-th count between two ends, from the least one on.  A step of zero counts as
one. -/
def repeatStep (inner : Pattern τ ν) (lower upper : Bound) (step : Nat) : Pattern τ ν :=
  let least := lower.least
  match upper with
  | .included count => .repeated inner least (some count) (Nat.max step 1)
  | .excluded 0 => .repeated inner (Nat.max least 1) (some 0) (Nat.max step 1)
  | .excluded (count + 1) => .repeated inner least (some count) (Nat.max step 1)
  | .unbounded => .repeated inner least none (Nat.max step 1)

/-- Every count between two ends. -/
def repeatRange (inner : Pattern τ ν) (lower upper : Bound) : Pattern τ ν :=
  inner.repeatStep lower upper 1

/-- At most once. -/
def optional (inner : Pattern τ ν) : Pattern τ ν :=
  inner.repeatRange (.included 0) (.included 1)

end Pattern
end StackCode
