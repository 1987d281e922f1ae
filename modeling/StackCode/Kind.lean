/-!
What operands refer to, and the symbol tables they index.
-/

namespace StackCode

/-- The symbol tables of a code unit. -/
inductive TableKind where
  | constants
  | names
  | locals
  /-- Closure variables that the code unit takes from outside. -/
  | frees
  /-- Closure variables that the code unit owns. -/
  | cells
  deriving DecidableEq, Repr, Inhabited

def TableKind.toText : TableKind → String
  | .constants => "constant"
  | .names => "name"
  | .locals => "local"
  | .frees => "free"
  | .cells => "cell"

/-- What the argument of an opcode refers to. -/
inductive OperandKind where
  /-- The opcode takes no argument. -/
  | none
  /-- A number, encoded as it is. -/
  | immediate
  | name
  | localName
  | constant
  /-- An index into the cell names followed by the free names. -/
  | closure
  /-- A branch, encoded as the distance from the end of the instruction. -/
  | relativeJump
  /-- A branch, encoded as the unit offset of its target. -/
  | absoluteJump
  deriving DecidableEq, Repr, Inhabited

namespace OperandKind

def all : List OperandKind :=
  [.none, .immediate, .name, .localName, .constant, .closure, .relativeJump, .absoluteJump]

def toText : OperandKind → String
  | .none => "none"
  | .immediate => "immediate"
  | .name => "name"
  | .localName => "local"
  | .constant => "constant"
  | .closure => "free"
  | .relativeJump => "relative jump"
  | .absoluteJump => "absolute jump"

def isJump : OperandKind → Bool
  | .relativeJump | .absoluteJump => true
  | _ => false

/-- The table an operand of this kind indexes.  Closure operands count as free names. -/
def table? : OperandKind → Option TableKind
  | .name => some .names
  | .localName => some .locals
  | .constant => some .constants
  | .closure => some .frees
  | _ => Option.none

end OperandKind
end StackCode
