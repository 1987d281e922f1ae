import StackCode.Code.Captured
import StackCode.Proofs.Pattern.Finite

/-!
Patterns over code: where a pattern for a fixed opcode matches.
-/

namespace StackCode
namespace CodePattern

/-! ## Fixed opcodes -/

/-- A test of an opcode looks at what is in sight. -/
theorem opcode_productive (value : UInt8) (test : Option OperandTest) (capture : Option String)
    (sequence : Array Instruction) : (opcode value test capture).Productive sequence := by
  refine Pattern.Productive.token ?_ none
  intro captures instruction
  cases test with
  | none => rfl
  | some test =>
    cases test with
    | literal expected => rfl
    | back name => simp only [passes, Captures.get_ofBindings]

/-- A test of an opcode and of the operand gives at most one way, if the operand can be tested with
what is in sight. -/
theorem opcode_ways {test : Option OperandTest} {env : Bindings CodeCapture}
    {accepts : Operand → Bool}
    (hpasses : ∀ operand, passes (.ofBindings env) operand test = .ok (accepts operand))
    (value : UInt8) (sequence : Array Instruction) (start : Nat) :
    (opcode value test none).ways sequence start env =
      .oneIf (sequence[start]?.any fun instruction =>
        instruction.opcode = value && accepts instruction.operand) (start + 1) env := by
  rw [opcode, Pattern.satisfying, Pattern.ways]
  cases sequence[start]? with
  | none => rfl
  | some instruction =>
    simp only [TokenTest.ways, TokenTest.verdict, hpasses, Option.any_some]
    by_cases hopcode : instruction.opcode = value
    · rw [if_neg (not_not_intro hopcode), decide_eq_true hopcode, Bool.true_and]
      cases accepts instruction.operand <;> rfl
    · rw [if_pos hopcode, decide_eq_false hopcode]
      rfl

section FixedOpcode

variable (value : UInt8) (sequence : Array Instruction)

/-- A test of the opcode alone comes to an end, and not with an error. -/
theorem opcode_finishes : (opcode value none none).Finishes sequence := by
  refine (opcode_productive value none none sequence).finishes fun start _ => ?_
  rw [opcode_ways fun _ => rfl]
  generalize sequence[start]?.any _ = holds
  cases holds <;> rfl

/-- Looking ahead for an opcode comes to an end as well. -/
theorem lookahead_opcode_finishes (hidden : Bool) :
    (Pattern.lookahead (opcode value none none) hidden).Finishes sequence := by
  refine (Pattern.Productive.lookahead (opcode_productive value none none sequence) hidden).finishes
    fun start _ => ?_
  rw [Pattern.ways, opcode_ways fun _ => rfl]
  generalize sequence[start]?.any _ = holds
  cases holds <;> rfl

/-- A fixed opcode matches wherever it stands, and nothing else. -/
theorem matchAt_opcode (fuel start : Nat) :
    Matcher.matchAt { pattern := opcode value none none, strategy := .longest } (fuel + 3) sequence
        start =
      .ok (if sequence[start]?.any (·.opcode = value) then
        some { start, stop := start + 1, captures := [] } else none) := by
  rw [Matcher.matchAt]
  show Matcher.longestWay sequence start none (fuel + 2 + 1) (.token _ none start)
    Matcher.freshCaptures = _
  rw [Matcher.longestWay, Cursor.advance]
  cases hitem : sequence[start]? with
  | none => rfl
  | some instruction =>
    by_cases hopcode : instruction.opcode = value
    · have hany : (some instruction).any (fun found => decide (found.opcode = value)) = true :=
        decide_eq_true hopcode
      simp only [TokenTest.run]
      rw [if_pos hany, if_neg (not_not_intro hopcode)]
      rfl
    · have hany : ¬(some instruction).any (fun found => decide (found.opcode = value)) = true := by
        simpa using hopcode
      simp only [TokenTest.run]
      rw [if_neg hany, if_pos hopcode]
      rfl

variable {value sequence} {fuel start : Nat}

theorem ne_of_matchAt_opcode
    (h : Matcher.matchAt { pattern := opcode value none none, strategy := .longest } (fuel + 3)
      sequence start = .ok none) {instruction : Instruction}
    (hitem : sequence[start]? = some instruction) : instruction.opcode ≠ value := by
  rw [matchAt_opcode, hitem, Option.any_some] at h
  intro hopcode
  rw [if_pos (decide_eq_true hopcode)] at h
  cases h

theorem stop_of_matchAt_opcode {found : Match CodeCapture}
    (h : Matcher.matchAt { pattern := opcode value none none, strategy := .longest } (fuel + 3)
      sequence start = .ok (some found)) : found.stop = start + 1 := by
  rw [matchAt_opcode] at h
  split at h
  · cases h
    rfl
  · cases h

end FixedOpcode

end CodePattern
end StackCode
