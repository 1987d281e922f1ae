import StackCode.Assembly.Slot
import StackCode.Bytecode.Encoding

/-!
Layout: the unit offsets of slots.  The argument of a branch depends on offsets, and offsets
depend on how many extension units each argument needs.  Offsets start out as if no instruction
were extended, and the slots are placed again and again until the offsets stay as they are.
-/

namespace StackCode

/-- How an instruction is encoded: its argument and the number of extension units. -/
structure Width where
  argument : Nat
  extensions : Nat
  deriving DecidableEq, Repr

/-- Settled offsets.  Behind those of the slots stands the end of the code. -/
structure Layout where
  offsets : Array Nat
  widths : List Width
  /-- The number of passes until the offsets settled. -/
  passes : Nat

namespace Layout

/-- The width of a relative branch at unit `unit`, tried with `extensions` extension units and
then with more.  Extension units shorten the distance, so the smallest number that can carry the
distance is taken. -/
def relativeFrom (unit target : Nat) : (fuel extensions : Nat) → Except Error Width
  | 0, _ => .error (.distantBranch unit target)
  | fuel + 1, extensions =>
    let next := unit + extensions + 1
    if target < next then .error (.backwardBranch unit target)
    else if Encoding.extensionCount (target - next) ≤ extensions then
      .ok { argument := target - next, extensions }
    else relativeFrom unit target fuel (extensions + 1)

/-- The width of a relative branch at unit `unit`. -/
def relative (unit target : Nat) : Except Error Width :=
  relativeFrom unit target (Encoding.maxExtensions + 1) 0

/-- As few extension units as the argument needs. -/
def plain (argument : Nat) : Width :=
  { argument, extensions := Encoding.extensionCount argument }

/-- The width of a slot at unit `unit`, whose target stands at unit `target`. -/
def slotWidth (slot : Slot) (unit target : Nat) : Except Error Width :=
  match slot.target, slot.kind with
  | none, _ => .ok (plain slot.argument)
  | some _, .relativeJump => relative unit target
  | some _, _ => .ok (plain target)

/-- Where a target stands.  Slots that are placed already have their offsets, and for the others
those of the pass before are taken. -/
def targetUnit (previous placed : Array Nat) (slot : Slot) : Nat :=
  match slot.target with
  | none => 0
  | some target => (placed[target]?.or previous[target]?).getD 0

/-- Offsets must fit 32 bits. -/
def checkUnit (unit : Nat) : Except Error Unit :=
  if unit < 0x100000000 then .ok () else .error (.addressSpace unit)

/-- Places `slots` from unit `unit` on, behind those that stand at `placed` with `widths`, last
first. -/
def place (previous : Array Nat) (unit : Nat) (placed : Array Nat) (widths : List Width) :
    List Slot → Except Error (Array Nat × List Width)
  | [] =>
    match checkUnit unit with
    | .error error => .error error
    | .ok () => .ok (placed.push unit, widths.reverse)
  | slot :: rest =>
    match checkUnit unit with
    | .error error => .error error
    | .ok () =>
      let placed := placed.push unit
      match slotWidth slot unit (targetUnit previous placed slot) with
      | .error error => .error error
      | .ok width => place previous (unit + width.extensions + 1) placed (width :: widths) rest

/-- Places the slots until the offsets settle, at most `budget` more times. -/
def settle (slots : List Slot) : (budget passes : Nat) → Array Nat → Except Error Layout
  | 0, passes, _ => .error (.layoutDiverged passes)
  | budget + 1, passes, previous =>
    match place previous 0 #[] [] slots with
    | .error error => .error error
    | .ok (offsets, widths) =>
      if offsets = previous then .ok { offsets, widths, passes := passes + 1 }
      else settle slots budget (passes + 1) offsets

/-- The layout of slots. -/
def ofSlots (slots : List Slot) (budget : Nat) : Except Error Layout :=
  if slots.length < 0x100000000 then settle slots budget 0 (Array.range (slots.length + 1))
  else .error (.addressSpace (0x100000000))

/-- The units of slots with these widths. -/
def code (extension : UInt8) (slots : List Slot) (widths : List Width) : List UInt8 :=
  (slots.zip widths).flatMap fun (slot, width) =>
    Encoding.instruction extension slot.instruction.opcode width.argument width.extensions

end Layout
end StackCode
