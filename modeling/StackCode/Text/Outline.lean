/-!
Outlines of structured values: a constructor followed by its arguments in parentheses or by its
named fields in braces, with lists in brackets.
-/

namespace StackCode
namespace Text

/-- Items between brackets. -/
def list (items : List String) : String := "[" ++ ", ".intercalate items ++ "]"

/-- A constructor with its arguments. -/
def call (name : String) (arguments : List String) : String :=
  name ++ "(" ++ ", ".intercalate arguments ++ ")"

/-- A constructor with its named fields. -/
def record (name : String) (fields : List (String × String)) : String :=
  name ++ " \x7b " ++ ", ".intercalate (fields.map fun f => f.1 ++ ": " ++ f.2) ++ " \x7d"

/-- A value that may be absent. -/
def option (render : α → String) : Option α → String
  | none => "None"
  | some a => call "Some" [render a]

/-- A truth value. -/
def bool : Bool → String
  | true => "true"
  | false => "false"

end Text
end StackCode
