import StackCode.Pattern.Basic

/-!
Outlines of patterns.  Conditions that are functions are left out.
-/

namespace StackCode
namespace Pattern

variable {τ ν : Type}

/-- A capture name, or its absence. -/
def captureOutline (capture : Option String) : String := Text.option Text.quoteString capture

/-- The outline of a condition on a single token. -/
def tokenOutline (token : τ → String) (capture : Option String) : TokenTest τ ν → String
  | .literal value =>
    Text.record "Direct"
      [("expected", Text.call "Literal" [token value]), ("capture", captureOutline capture)]
  | .back name =>
    Text.record "Direct"
      [("expected", Text.call "Back" [Text.quoteString name]),
       ("capture", captureOutline capture)]
  | .oneOf options =>
    Text.record "AnyOf"
      [("options", Text.list (options.map token)), ("capture", captureOutline capture)]
  | .predicate _ => "Function \x7b capture: " ++ captureOutline capture ++ ", .. \x7d"

mutual

/-- The outline of a pattern, given those of its tokens. -/
def outline (token : τ → String) : Pattern τ ν → String
  | .token test capture => tokenOutline token capture test
  | .span lengths capture =>
    Text.record "Any"
      [("capture", captureOutline capture), ("lengths", Text.list (lengths.map toString))]
  | .atEnd => "Eos"
  | .lookahead inner hidden =>
    Text.record "Lookahead"
      [("inner", outline token inner), ("hide_captures", Text.bool hidden)]
  | .choice branches => Text.call "Alternation" [Text.list (outlines token branches)]
  | .chain parts => Text.call "Concatenation" [Text.list (outlines token parts)]
  | .repeated inner min max step =>
    Text.record "Repeat"
      [("inner", outline token inner), ("min", toString min),
       ("max", Text.option toString max), ("step", toString step)]
  | .weighted run =>
    Text.call "Custom"
      [Text.record "StackEffectMatcher"
        [("target", run.totals.outline), ("capture", captureOutline (run.capture.map (·.1)))]]

def outlines (token : τ → String) : List (Pattern τ ν) → List String
  | [] => []
  | pattern :: rest => outline token pattern :: outlines token rest

end

end Pattern
end StackCode
