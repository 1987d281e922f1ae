import StackCode.InstructionSet.Small
import StackCode.Proofs.Code.Patterns

/-!
Runs of instructions by the total of their stack effects.

A stack run gives an end for each total that is accepted, and the total is what the name is bound to
there.  A test of the next operand for that name then sees the total of this very run, however many
runs were tried before.
-/

namespace StackCode

/-! ## Lists of ways -/

/-- Of ways that are followed by at most one, those that are followed stay, with a new end. -/
theorem Ways.ofList_andThen {ν : Type} {next : Nat → Bindings ν → Ways ν}
    {list : List (Nat × Bindings ν)} (keeps : Nat × Bindings ν → Bool) (further : Nat → Nat)
    (h : ∀ way ∈ list, next way.1 way.2 = oneIf (keeps way) (further way.1) way.2) :
    (ofList list).andThen next =
      ofList ((list.filter keeps).map fun way => (further way.1, way.2)) := by
  induction list with
  | nil => rfl
  | cons way rest ih =>
    obtain ⟨hway, hrest⟩ := List.forall_mem_cons.mp h
    show next way.1 way.2 ++ (ofList rest).andThen next = _
    rw [hway, ih hrest]
    cases hkeeps : keeps way with
    | false =>
      rw [List.filter_cons, hkeeps]
      rfl
    | true =>
      rw [List.filter_cons, hkeeps]
      rfl

/-! ## Totals -/

/-- The stack effect of an instruction with a known opcode. -/
def Instruction.effect (isa : InstructionSet) (instruction : Instruction) : Int :=
  match instruction.stackEffect isa with
  | .ok effect => effect
  | .error _ => 0

theorem Instruction.stackEffect_eq {isa : InstructionSet} {instruction : Instruction}
    (h : (isa.get? instruction.opcode).isSome) :
    instruction.stackEffect isa = .ok (instruction.effect isa) := by
  obtain ⟨definition, hdefinition⟩ := Option.isSome_iff_exists.mp h
  have heffect : instruction.stackEffect isa =
      .ok (definition.stack.delta (instruction.operand.immediate?.getD 0)) := by
    rw [stackEffect, InstructionSet.stackEffect, InstructionSet.get, hdefinition]
    rfl
  rw [effect, heffect]

/-- The change of the stack height from `start` up to `stop`. -/
def totalEffect (isa : InstructionSet) (sequence : Array Instruction) (start stop : Nat) : Int :=
  (sequence.extract start stop).foldl (fun total instruction => total + instruction.effect isa) 0

/-- The ends of the runs from `start` on that have an accepted total, the shortest run first. -/
def acceptedStops (isa : InstructionSet) (totals : Totals) (sequence : Array Instruction)
    (start : Nat) : List Nat :=
  (List.range' (start + 1) (sequence.size - start)).filter fun stop =>
    totals.accepts (totalEffect isa sequence start stop)

section Totals

variable (isa : InstructionSet) (sequence : Array Instruction) (start : Nat)

theorem totalEffect_self : totalEffect isa sequence start start = 0 := by
  have hnone : sequence.extract start start = #[] :=
    Array.extract_empty_of_stop_le_start (Nat.le_refl start)
  rw [totalEffect, hnone]
  rfl

/-- The total grows by the effect of the instruction that is passed. -/
theorem totalEffect_succ {place : Nat} (hplace : start ≤ place) {instruction : Instruction}
    (hinstruction : sequence[place]? = some instruction) :
    totalEffect isa sequence start (place + 1) =
      totalEffect isa sequence start place + instruction.effect isa := by
  obtain ⟨hlt, hget⟩ := Array.getElem?_eq_some_iff.mp hinstruction
  unfold totalEffect
  rw [Array.extract_succ_right (by omega) hlt, hget]
  simp

end Totals

/-! ## Stack runs -/

namespace CodePattern

/-- The run of a stack pattern. -/
def heightRun (isa : InstructionSet) (totals : Totals) (capture : Option String) :
    WeightedRun Instruction CodeCapture where
  weight := fun instruction => instruction.stackEffect isa
  totals := totals
  capture := capture.map fun name => (name, .height)

variable {isa : InstructionSet} {sequence : Array Instruction}

/-- The way that a stack run gives where it ends. -/
def heightWay (isa : InstructionSet) (capture : Option String) (sequence : Array Instruction)
    (start : Nat) (env : Bindings CodeCapture) (stop : Nat) : Nat × Bindings CodeCapture :=
  (stop, Bindings.putIf env capture (.height (totalEffect isa sequence start stop)))

/-- Behind a part of a run the total is that of the part, and each further instruction that makes it
an accepted one ends a way. -/
theorem heightRun_ways (hknown : ∀ instruction ∈ sequence, (isa.get? instruction.opcode).isSome)
    (totals : Totals) (capture : Option String) (start : Nat) (env : Bindings CodeCapture) :
    ∀ (tokens : List Instruction) (place : Nat), start ≤ place →
      sequence.toList.drop place = tokens →
      (heightRun isa totals capture).ways tokens place (totalEffect isa sequence start place) env =
        .ofList (((List.range' (place + 1) tokens.length).filter fun stop =>
          totals.accepts (totalEffect isa sequence start stop)).map
            (heightWay isa capture sequence start env)) := by
  intro tokens
  induction tokens with
  | nil => exact fun _ _ _ => rfl
  | cons instruction tokens ih =>
    intro place hplace htokens
    obtain ⟨hinstruction, hrest⟩ := getElem?_of_drop htokens
    have hweight : (heightRun isa totals capture).weight instruction =
        .ok (instruction.effect isa) :=
      Instruction.stackEffect_eq (hknown instruction (Array.mem_of_getElem? hinstruction))
    have htotal := totalEffect_succ isa sequence start hplace hinstruction
    have hothers := ih (place + 1) (Nat.le_succ_of_le hplace) hrest
    rw [List.length_cons, List.range'_succ, List.filter_cons, WeightedRun.ways, hweight]
    simp only [← htotal, hothers]
    by_cases haccepts : totals.accepts (totalEffect isa sequence start (place + 1)) = true
    · have hrun : (heightRun isa totals capture).totals.accepts
          (totalEffect isa sequence start (place + 1)) = true := haccepts
      rw [if_pos haccepts, if_pos hrun]
      cases capture <;> rfl
    · have hrun : ¬(heightRun isa totals capture).totals.accepts
          (totalEffect isa sequence start (place + 1)) = true := haccepts
      rw [if_neg haccepts, if_neg hrun]

theorem stackRun_ways (hknown : ∀ instruction ∈ sequence, (isa.get? instruction.opcode).isSome)
    (totals : Totals) (capture : Option String) (start : Nat) (env : Bindings CodeCapture) :
    (stackRun isa totals capture).ways sequence start env =
      .ofList ((acceptedStops isa totals sequence start).map
        (heightWay isa capture sequence start env)) := by
  have hways := heightRun_ways hknown totals capture start env (sequence.toList.drop start) start
    (Nat.le_refl start) rfl
  rw [totalEffect_self, List.length_drop, Array.length_toList] at hways
  show (Pattern.weighted (heightRun isa totals capture)).ways sequence start env = _
  rw [Pattern.ways, hways]
  rfl

/-! ## Operands that are totals -/

/-- At `stop` there is an instruction with that opcode, and its operand is the number `total`. -/
def countsAt (sequence : Array Instruction) (value : UInt8) (total : Int) (stop : Nat) : Bool :=
  0 ≤ total ∧ total < 0x100000000 ∧
    sequence[stop]? = some { opcode := value, operand := .immediate (.ofNat total.toNat) }

theorem isOperand_height (total : Int) (operand : Operand) :
    (CodeCapture.height total).isOperand operand = true ↔
      0 ≤ total ∧ total < 0x100000000 ∧ operand = .immediate (.ofNat total.toNat) := by
  unfold CodeCapture.isOperand
  rw [decide_eq_true_iff, CodeCapture.operand?]
  by_cases hrange : 0 ≤ total ∧ total < 0x100000000
  · rw [if_pos hrange]
    constructor
    · intro h
      exact ⟨hrange.1, hrange.2, (Option.some.inj h).symm⟩
    · intro h
      rw [h.2.2]
  · rw [if_neg hrange]
    constructor
    · intro h
      cases h
    · intro h
      exact absurd ⟨h.1, h.2.1⟩ hrange

theorem countsAt_eq (value : UInt8) (total : Int) (stop : Nat) :
    countsAt sequence value total stop =
      sequence[stop]?.any fun instruction => instruction.opcode = value &&
        (CodeCapture.height total).isOperand instruction.operand := by
  rw [Bool.eq_iff_iff, countsAt]
  cases hitem : sequence[stop]? with
  | none => simp
  | some instruction =>
    obtain ⟨opcode, operand⟩ := instruction
    rw [Option.any_some, Bool.and_eq_true, isOperand_height]
    simp [and_left_comm]

/-- Where the name is bound to a total, the next instruction matches if it counts that total. -/
theorem opcode_back_ways (value : UInt8) {name : String} {total : Int}
    {env : Bindings CodeCapture} (henv : env.lookup name = some (.height total)) (stop : Nat) :
    (opcode value (some (.back name)) none).ways sequence stop env =
      .oneIf (countsAt sequence value total stop) (stop + 1) env := by
  have hpasses : ∀ operand : Operand,
      passes (.ofBindings env) operand (some (.back name)) =
        .ok ((CodeCapture.height total).isOperand operand) := by
    intro operand
    have hfind : (Captures.ofBindings env).find? name = some (.height total) := henv
    rw [passes, Captures.get, hfind]
    rfl
  rw [opcode_ways hpasses, countsAt_eq]

/-! ## Runs and their counts -/

/-- Behind a run, an instruction that counts its total. -/
theorem counted_ways (hknown : ∀ instruction ∈ sequence, (isa.get? instruction.opcode).isSome)
    (totals : Totals) (name : String) (value : UInt8) (start : Nat) (env : Bindings CodeCapture) :
    (stackRun isa totals (some name) ++ opcode value (some (.back name)) none).ways sequence start
        env =
      .ofList (((acceptedStops isa totals sequence start).filter fun stop =>
        countsAt sequence value (totalEffect isa sequence start stop) stop).map fun stop =>
          (stop + 1, Bindings.put env name (.height (totalEffect isa sequence start stop)))) := by
  show (Pattern.ways sequence (stackRun isa totals (some name)) start env).andThen
    (Pattern.chainWays sequence [opcode value (some (.back name)) none]) = _
  rw [stackRun_ways hknown, Ways.ofList_andThen (fun way =>
    countsAt sequence value (totalEffect isa sequence start way.1) way.1) (· + 1)]
  · rw [List.filter_map, List.map_map]
    rfl
  · intro way hway
    obtain ⟨stop, -, rfl⟩ := List.mem_map.mp hway
    have hbound : (heightWay isa (some name) sequence start env stop).2.lookup name =
        some (.height (totalEffect isa sequence start stop)) := by
      simp [heightWay, Bindings.putIf, Bindings.put]
    show ((opcode value (some (.back name)) none).ways sequence stop _).andThen Ways.one = _
    exact (Ways.andThen_one _).trans (opcode_back_ways value hbound stop)

/-- Over instructions with known opcodes, a stack run gives the ends of all runs with an accepted
total, the shortest first, and the name is bound to the total of that very run.  Behind it, a test of
an opcode with the name as its operand gives the ends of those runs that are followed by an
instruction which counts their total: one that is not negative and fits a word. -/
theorem stackRun_emits (hknown : ∀ instruction ∈ sequence, (isa.get? instruction.opcode).isSome)
    (totals : Totals) (start : Nat) (captures : Captures CodeCapture) :
    (∀ capture, ((stackRun isa totals capture).cursor start).Emits sequence captures
      (.ofList ((acceptedStops isa totals sequence start).map fun stop =>
        (stop, Bindings.putIf captures.snapshot capture
          (.height (totalEffect isa sequence start stop)))))) ∧
    ∀ name value, ((stackRun isa totals (some name) ++
        opcode value (some (.back name)) none).cursor start).Emits sequence captures
      (.ofList (((acceptedStops isa totals sequence start).filter fun stop =>
        countsAt sequence value (totalEffect isa sequence start stop) stop).map fun stop =>
          (stop + 1, Bindings.put captures.snapshot name
            (.height (totalEffect isa sequence start stop))))) := by
  constructor
  · intro capture
    have hproductive : (stackRun isa totals capture).Productive sequence := .weighted _
    exact stackRun_ways hknown totals capture start captures.snapshot ▸
      hproductive.emits start captures
  · intro name value
    have hproductive : (stackRun isa totals (some name) ++
        opcode value (some (.back name)) none).Productive sequence :=
      .chain (List.forall_mem_cons.mpr ⟨.weighted _,
        List.forall_mem_singleton.mpr (opcode_productive value (some (.back name)) none sequence)⟩)
    exact counted_ways hknown totals name value start captures.snapshot ▸
      hproductive.emits start captures

/-- A call of one argument behind instructions of which the first one takes a value off the stack. -/
def calling : Array Instruction :=
  #[{ opcode := 1, operand := .none }, { opcode := 101, operand := .name "f" },
    { opcode := 101, operand := .name "x" }, { opcode := 131, operand := .immediate 1 }]

/-- The run of one instruction has an accepted total as well, and no operand counts that one. -/
theorem calling_emits :
    (∀ instruction ∈ calling, (InstructionSet.small.get? instruction.opcode).isSome) ∧
      ((stackRun .small (.oneOf [-1, 1]) (some "count")).cursor 0).Emits calling .empty
        (.way 1 [("count", .height (-1))] (.way 3 [("count", .height 1)] .done)) ∧
      ((stackRun .small (.oneOf [-1, 1]) (some "count") ++
          opcode 131 (some (.back "count")) none).cursor 0).Emits calling .empty
        (.way 4 [("count", .height 1)] .done) := by
  have hknown : ∀ instruction ∈ calling,
      (InstructionSet.small.get? instruction.opcode).isSome := by decide
  obtain ⟨hruns, hcounted⟩ := stackRun_emits hknown (.oneOf [-1, 1]) 0 .empty
  exact ⟨hknown, hruns (some "count"), hcounted "count" 131⟩

end CodePattern
end StackCode
