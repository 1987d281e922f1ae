import StackCode.Code.Search

/-!
Recipes: edits that are given as data.  A recipe says to which matches it applies, and what it
puts in place of the instructions that were matched.
-/

namespace StackCode

/-- A piece of the instructions that replace a match. -/
inductive Piece where
  | fixed (instructions : List Instruction)
  /-- The instructions captured as `name`. -/
  | captured (name : String)
  /-- An instruction with the operand captured as `name`. -/
  | withOperand (opcode : UInt8) (name : String)
  /-- An instruction with the height captured as `name`, as a number. -/
  | withHeight (opcode : UInt8) (name : String)
  /-- The matched instructions without some at either end. -/
  | window (front back : Nat)
  deriving Inhabited

/-- The instructions that a piece stands for.  What was not captured stands for none. -/
def Piece.instructions (found : Match CodeCapture) (matched : List Instruction) :
    Piece → List Instruction
  | .fixed instructions => instructions
  | .captured name => ((found.get? name).bind (·.instructions?)).getD []
  | .withOperand opcode name =>
    match (found.get? name).bind (·.operand?) with
    | some operand => [{ opcode, operand }]
    | none => []
  | .withHeight opcode name =>
    match (found.get? name).bind (·.height?) with
    | some height => [{ opcode, operand := .immediate (.ofNat (height % 0x100000000).toNat) }]
    | none => []
  | .window front back =>
    if matched.length < front + back then []
    else (matched.drop front).take (matched.length - front - back)

/-- An edit, as a list of things to do with a match. -/
structure Recipe where
  /-- Only matches that captured this operand. -/
  condition : Option (String × Operand)
  /-- Only the match with this number, counted from 1. -/
  number : Option Nat
  /-- Symbols to be entered into the tables. -/
  symbols : List Metadata.Symbol
  /-- What replaces the matched instructions. -/
  replacement : Option (List Piece)
  /-- Drop the instructions from the start of the match on. -/
  truncate : Bool
  /-- Instructions to be added to the end of the block. -/
  appended : List Instruction
  /-- The new branch of the block, or none. -/
  jump : Option (Option Instruction)
  /-- The new fallthrough of the block, or none. -/
  fallthrough : Option (Option Label)
  /-- A mnemonic that must exist and take no operand. -/
  required : Option String
  stop : Bool
  deriving Inhabited

namespace Recipe

/-- The recipe applies to the match with this number. -/
def applies (recipe : Recipe) (found : Match CodeCapture) (number : Nat) : Bool :=
  recipe.condition.all (fun (name, operand) => (found.get? name).any (·.isOperand operand)) &&
    recipe.number.all (· = number)

/-- Applies a recipe to a match in a block. -/
def apply {σ : Type} (recipe : Recipe) (isa : InstructionSet) (block : BasicBlock)
    (found : Match CodeCapture) (metadata : Metadata) (state : σ) : Edit σ :=
  let matched := (block.instructions.drop found.start).take found.size
  let block :=
    match recipe.replacement with
    | some pieces =>
      block.splice found.start found.stop (pieces.flatMap (Piece.instructions found matched))
    | none => block
  let kept :=
    if recipe.truncate then block.instructions.take found.start else block.instructions
  let control : Except Error Control :=
    match recipe.required.map fun mnemonic => Instruction.named isa mnemonic .none with
    | some (.error error) => .error error
    | _ => .ok (if recipe.stop then .stop else .proceed)
  { block := { block with
      instructions := kept ++ recipe.appended
      jump := recipe.jump.getD block.jump
      fallthrough := recipe.fallthrough.getD block.fallthrough }
    metadata := metadata.ensureAll recipe.symbols
    state
    control }

/-- Applies the first of some recipes that applies to a match, and leaves other matches alone.
The state collects the matches, last first, each with its block. -/
def editor (isa : InstructionSet) (recipes : List Recipe) :
    Editor (List (Nat × Match CodeCapture)) :=
  fun block found metadata seen =>
    let seen := (block.id, found) :: seen
    match recipes.find? (·.applies found seen.length) with
    | some recipe => recipe.apply isa block found metadata seen
    | none => { block, metadata, state := seen, control := .ok .proceed }

end Recipe
end StackCode
