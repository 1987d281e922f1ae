/-!
Quoted text.  A character or a string is shown between marks, with the mark, the backslash and
the control characters escaped, so that the shown form is printable and ends at its closing
mark.
-/

namespace StackCode
namespace Text

/-- The lower case hexadecimal digits of `n`. -/
def hex (n : Nat) : List Char := Nat.toDigits 16 n

/-- Control characters of the two ASCII-compatible control blocks. -/
def isControl (c : Char) : Bool :=
  c.toNat < 0x20 || (0x7f ≤ c.toNat && c.toNat < 0xa0)

/-- How `c` is written between two marks `mark`. -/
def escape (mark c : Char) : List Char :=
  if c = mark then ['\\', c]
  else if c = '\\' then ['\\', '\\']
  else if c = '\n' then ['\\', 'n']
  else if c = '\t' then ['\\', 't']
  else if c = '\r' then ['\\', 'r']
  else if c.toNat = 0 then ['\\', '0']
  else if isControl c then ['\\', 'u', '\x7b'] ++ hex c.toNat ++ ['\x7d']
  else [c]

/-- `cs` between two marks. -/
def quote (mark : Char) (cs : List Char) : String :=
  String.ofList (mark :: cs.flatMap (escape mark) ++ [mark])

/-- A string in double quotes. -/
def quoteString (s : String) : String := quote '\x22' s.toList

/-- A character in single quotes. -/
def quoteChar (c : Char) : String := quote '\x27' [c]

/-- A byte as `0x` and two hexadecimal digits. -/
def hexByte (b : UInt8) : String :=
  String.ofList ('0' :: 'x' :: (if b.toNat < 16 then ['0'] else []) ++ hex b.toNat)

end Text
end StackCode
