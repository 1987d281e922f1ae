import StackCode.Proofs.Assembly.Slots
import StackCode.Proofs.Bytecode.Stream

/-!
The grammar of encoded code.  Code is read exactly if it is a row of groups, each of at most three
extension units and one unit with an opcode that is defined, and every branch lands on the start of
a group.  The instructions are then these groups in their order.
-/

namespace StackCode
namespace Decoded

open Encoding Outcome

/-! ## Groups of bytes -/

/-- The number that bytes spell behind those of `high`, the most significant one first. -/
def bigEndian (high : Nat) (bytes : List UInt8) : Nat :=
  bytes.foldl (fun value byte => value * 256 + byte.toNat) high

theorem bigEndian_cons (high : Nat) (byte : UInt8) (bytes : List UInt8) :
    bigEndian high (byte :: bytes) = bigEndian (high * 256 + byte.toNat) bytes := rfl

theorem bigEndian_concat (high : Nat) (bytes : List UInt8) (last : UInt8) :
    bigEndian high (bytes ++ [last]) = bigEndian high bytes * 256 + last.toNat := by
  rw [bigEndian, List.foldl_append]
  rfl

/-- The bytes stand behind the number that is in front of them. -/
theorem bigEndian_div (bytes : List UInt8) :
    ∀ high, bigEndian high bytes / 256 ^ bytes.length = high := by
  induction bytes with
  | nil =>
    intro high
    exact Nat.div_one high
  | cons byte bytes ih =>
    intro high
    have hbyte := byte.toNat_lt
    rw [bigEndian_cons, List.length_cons, Nat.pow_succ, ← Nat.div_div_eq_div_mul, ih]
    omega

theorem bigEndian_lt (bytes : List UInt8) : bigEndian 0 bytes < 256 ^ bytes.length :=
  (Nat.div_eq_zero_iff_lt (Nat.pow_pos (by decide))).mp (bigEndian_div bytes 0)

/-- The bytes of one instruction: those that its extension units carry, its opcode, and the low byte
of its argument. -/
structure Spelling where
  high : List UInt8
  opcode : UInt8
  low : UInt8

namespace Spelling

def bytes (extension : UInt8) (spelling : Spelling) : List UInt8 :=
  spelling.high.flatMap (fun byte => [extension, byte]) ++ [spelling.opcode, spelling.low]

/-- The number of units. -/
def size (spelling : Spelling) : Nat := spelling.high.length + 1

/-- The argument, with its bytes in big-endian order. -/
def argument (spelling : Spelling) : Nat := bigEndian 0 (spelling.high ++ [spelling.low])

/-- The unit that a branch at `unit` lands on. -/
def target? (isa : InstructionSet) (unit : Nat) (spelling : Spelling) : Option Nat :=
  match isa.operandKind spelling.opcode with
  | .ok .absoluteJump => some spelling.argument
  | .ok .relativeJump => some (unit + spelling.size + spelling.argument)
  | _ => none

/-- Groups in their order, each with the unit at which it starts. -/
def placed : (unit : Nat) → List Spelling → List (Nat × Spelling)
  | _, [] => []
  | unit, first :: rest => (unit, first) :: placed (unit + first.size) rest

theorem argument_lt (spelling : Spelling) : spelling.argument < 256 ^ spelling.size := by
  have h := bigEndian_lt (spelling.high ++ [spelling.low])
  rwa [List.length_append] at h

/-- Extension units only carry the bytes above the low one. -/
theorem extensions_bigEndian (extension low : UInt8) (bytes : List UInt8) :
    ∀ high, extensions extension (bigEndian high (bytes ++ [low])) bytes.length =
      bytes.flatMap fun byte => [extension, byte] := by
  induction bytes with
  | nil => exact fun _ => rfl
  | cons byte bytes ih =>
    intro high
    have hdiv := bigEndian_div (bytes ++ [low]) (high * 256 + byte.toNat)
    rw [List.length_append, List.length_singleton] at hdiv
    have hbyte : UInt8.ofNat (high * 256 + byte.toNat) = byte := by
      rw [← UInt8.toNat_inj, toNat_ofNat_byte]
      have := byte.toNat_lt
      omega
    rw [List.cons_append, bigEndian_cons, List.length_cons, extensions, Nat.pow_eq, hdiv, ih, hbyte]
    rfl

/-- A group is what encoding its opcode and its argument gives, with as many extension units. -/
theorem bytes_eq (extension : UInt8) (spelling : Spelling) :
    spelling.bytes extension =
      instruction extension spelling.opcode spelling.argument (spelling.size - 1) := by
  have hlow : UInt8.ofNat spelling.argument = spelling.low := by
    rw [argument, bigEndian_concat, ← UInt8.toNat_inj, toNat_ofNat_byte]
    have := spelling.low.toNat_lt
    omega
  rw [bytes, instruction, hlow, size, Nat.add_sub_cancel, argument, extensions_bigEndian]

end Spelling

/-! ## Reading groups -/

/-- A group that was read is spelled by the bytes it was read from. -/
theorem Group.exists_bytes {extension : UInt8} {unit seen high : Nat} {bytes rest : List UInt8}
    {group : Group} (hseen : seen ≤ maxExtensions)
    (h : Group.read extension unit seen high bytes = .ok (group, rest)) :
    ∃ spelling : Spelling, bytes = spelling.bytes extension ++ rest ∧
      seen + spelling.high.length ≤ maxExtensions ∧ spelling.opcode = group.opcode ∧
      seen + spelling.size = group.size ∧
      bigEndian high (spelling.high ++ [spelling.low]) = group.argument := by
  fun_induction Group.read extension unit seen high bytes with
  | case1 => cases h
  | case2 seen high low tail argument hroom ih =>
    obtain ⟨⟨others, opcode, last⟩, rfl, hmax, hopcode, hsize, hargument⟩ := ih (by omega) h
    refine ⟨⟨low :: others, opcode, last⟩, rfl, ?_, hopcode, ?_, hargument⟩
    · rw [List.length_cons, Nat.add_comm others.length, ← Nat.add_assoc]
      exact hmax
    · rw [← hsize, Spelling.size, Spelling.size, List.length_cons]
      dsimp only
      omega
  | case3 seen high opcode low tail argument hopcode =>
    cases h
    exact ⟨⟨[], opcode, low⟩, rfl, hseen, rfl, rfl, rfl⟩
  | case4 => cases h

variable {isa : InstructionSet}

/-- A group that can stand at a unit: it has at most three extension units, its opcode is defined,
and if it branches, its target is a word. -/
structure Spelling.Valid (isa : InstructionSet) (unit : Nat) (spelling : Spelling) : Prop where
  high : spelling.high.length ≤ maxExtensions
  defined : ∃ kind, isa.operandKind spelling.opcode = .ok kind
  target_lt : ∀ target, spelling.target? isa unit = some target → target < 0x100000000

/-- The instruction that a group at a unit stands for, without a mark. -/
def Spelling.instruction (isa : InstructionSet) (unit : Nat) (spelling : Spelling) : Decoded :=
  { offset := unit
    size := spelling.size
    opcode := spelling.opcode
    argument := if isa.operandKind spelling.opcode = .ok .none then none else some spelling.argument
    target := spelling.target? isa unit
    line := none
    isTarget := false }

/-- The target of a group is the one that its bytes spell, and a word. -/
theorem Spelling.target_eq_ok {spelling : Spelling} {unit : Nat} {kind : OperandKind}
    {target : Option Nat} (hkind : isa.operandKind spelling.opcode = .ok kind)
    (hhigh : spelling.high.length ≤ maxExtensions) :
    Group.target ⟨spelling.size, spelling.opcode, spelling.argument⟩ unit kind = .ok target ↔
      target = spelling.target? isa unit ∧
        ∀ landing, spelling.target? isa unit = some landing → landing < 0x100000000 := by
  have hargument : spelling.argument < 0x100000000 := by
    refine Nat.lt_of_lt_of_le spelling.argument_lt ?_
    exact Nat.pow_le_pow_right (by decide) (show spelling.size ≤ 4 from Nat.succ_le_succ hhigh)
  rw [target?, hkind]
  cases kind with
  | absoluteJump =>
    simp only [Group.target, Except.ok.injEq, Option.some.injEq, forall_eq']
    exact ⟨fun h => ⟨h.symm, hargument⟩, fun h => h.1.symm⟩
  | relativeJump =>
    simp only [Group.target, Option.some.injEq, forall_eq']
    split
    · rename_i hlt
      rw [Except.ok.injEq]
      exact ⟨fun h => ⟨h.symm, hlt⟩, fun h => h.1.symm⟩
    · rename_i hge
      exact ⟨nofun, fun h => absurd h.2 hge⟩
  | _ =>
    simp only [Group.target, Except.ok.injEq]
    exact ⟨fun h => ⟨h.symm, nofun⟩, fun h => h.1.symm⟩

theorem Spelling.ofGroup_eq_ok {spelling : Spelling} {unit : Nat} {d : Decoded}
    (hhigh : spelling.high.length ≤ maxExtensions) :
    ofGroup isa unit ⟨spelling.size, spelling.opcode, spelling.argument⟩ = .ok d ↔
      spelling.Valid isa unit ∧ d = spelling.instruction isa unit := by
  rw [Decoded.ofGroup_eq_ok]
  constructor
  · rintro ⟨kind, target, hkind, htarget, rfl⟩
    obtain ⟨rfl, hlt⟩ := (target_eq_ok hkind hhigh).mp htarget
    refine ⟨⟨hhigh, ⟨kind, hkind⟩, hlt⟩, ?_⟩
    rw [instruction, hkind]
    simp only [Except.ok.injEq]
  · rintro ⟨⟨-, ⟨kind, hkind⟩, hlt⟩, rfl⟩
    refine ⟨kind, _, hkind, (target_eq_ok hkind hhigh).mpr ⟨rfl, hlt⟩, ?_⟩
    rw [instruction, hkind]
    simp only [Except.ok.injEq]

/-- An instruction is read exactly from the bytes of a group that can stand there. -/
theorem read_eq_ok_iff_valid {unit : Nat} {bytes rest : List UInt8} {d : Decoded} :
    read isa unit bytes = .ok (d, rest) ↔
      ∃ spelling : Spelling, bytes = spelling.bytes isa.extension ++ rest ∧
        spelling.Valid isa unit ∧ d = spelling.instruction isa unit := by
  rw [read_eq_ok]
  constructor
  · rintro ⟨⟨size, opcode, argument⟩, hgroup, hd⟩
    obtain ⟨spelling, hbytes, hmax, rfl, hsize, rfl⟩ := Group.exists_bytes (Nat.zero_le _) hgroup
    rw [Nat.zero_add] at hmax hsize
    subst hsize
    exact ⟨spelling, hbytes, (Spelling.ofGroup_eq_ok hmax).mp hd⟩
  · rintro ⟨spelling, rfl, hvalid, hd⟩
    obtain ⟨kind, hkind⟩ := hvalid.defined
    refine ⟨⟨spelling.size, spelling.opcode, spelling.argument⟩, ?_,
      (Spelling.ofGroup_eq_ok hvalid.high).mpr ⟨hvalid, hd⟩⟩
    rw [spelling.bytes_eq]
    exact Group.read_instruction (InstructionSet.ne_extension_of_operandKind hkind) hvalid.high
      spelling.argument_lt unit rest

/-! ## Rows of groups -/

/-- Code reads as a stream exactly if it is a row of groups that can stand where they do. -/
theorem stream_iff_valid {unit : Nat} {code : List UInt8} {decoded : List Decoded} :
    Stream isa unit code decoded ↔
      ∃ groups, code = groups.flatMap (Spelling.bytes isa.extension) ∧
        (∀ group ∈ Spelling.placed unit groups, group.2.Valid isa group.1) ∧
        decoded = (Spelling.placed unit groups).map fun group =>
          group.2.instruction isa group.1 := by
  constructor
  · intro h
    induction h with
    | nil unit => exact ⟨[], rfl, fun _ hmem => absurd hmem List.not_mem_nil, rfl⟩
    | @cons unit code rest first others hread _ ih =>
      obtain ⟨spelling, rfl, hvalid, rfl⟩ := read_eq_ok_iff_valid.mp hread
      obtain ⟨groups, rfl, hothers, rfl⟩ := ih
      exact ⟨spelling :: groups, rfl, List.forall_mem_cons.mpr ⟨hvalid, hothers⟩, rfl⟩
  · rintro ⟨groups, rfl, hvalid, rfl⟩
    induction groups generalizing unit with
    | nil => exact .nil unit
    | cons spelling groups ih =>
      obtain ⟨hfirst, hothers⟩ := List.forall_mem_cons.mp hvalid
      exact .cons (read_eq_ok_iff_valid.mpr ⟨spelling, rfl, hfirst, rfl⟩) (ih hothers)

/-- The grammar: the code is a row of groups that can stand where they do, and every branch lands on
the start of a group. -/
structure Spells (isa : InstructionSet) (code : List UInt8) (groups : List Spelling) : Prop where
  code : code = groups.flatMap (Spelling.bytes isa.extension)
  valid : ∀ group ∈ Spelling.placed 0 groups, group.2.Valid isa group.1
  lands : ∀ group ∈ Spelling.placed 0 groups, ∀ target, group.2.target? isa group.1 = some target →
    ∃ landing ∈ Spelling.placed 0 groups, landing.1 = target

/-- What is read of a group among others. -/
structure Spelling.Describes (isa : InstructionSet) (groups : List Spelling)
    (group : Nat × Spelling) (d : Decoded) : Prop where
  offset : d.offset = group.1
  size : d.size = group.2.size
  opcode : d.opcode = group.2.opcode
  argument : d.argument =
    if isa.operandKind group.2.opcode = .ok .none then none else some group.2.argument
  bytes : ∀ argument, d.argument = some argument →
    Encoding.instruction isa.extension d.opcode argument (d.size - 1) =
      group.2.bytes isa.extension
  target : d.target = group.2.target? isa group.1
  line : d.line = none
  isTarget : d.isTarget = true ↔
    ∃ branch ∈ placed 0 groups, branch.2.target? isa branch.1 = some d.offset

theorem mem_targets_placed {groups : List Spelling} {unit target : Nat} :
    target ∈ targets ((Spelling.placed unit groups).map fun group =>
        group.2.instruction isa group.1) ↔
      ∃ group ∈ Spelling.placed unit groups, group.2.target? isa group.1 = some target := by
  simp only [mem_targets, List.mem_map, exists_exists_and_eq_and]
  rfl

theorem ofCode_eq_ok_iff_spells {code : List UInt8} {result : List Decoded} :
    ofCode isa code = .ok result ↔ ∃ groups, Spells isa code groups ∧
      result = marked ((Spelling.placed 0 groups).map fun group =>
        group.2.instruction isa group.1) := by
  rw [ofCode_eq_ok]
  have hlands : ∀ groups, (∀ unit ∈ targets ((Spelling.placed 0 groups).map fun group =>
        group.2.instruction isa group.1), unit ∈ ((Spelling.placed 0 groups).map fun group =>
        group.2.instruction isa group.1).map (·.offset)) ↔
      ∀ group ∈ Spelling.placed 0 groups, ∀ target, group.2.target? isa group.1 = some target →
        ∃ landing ∈ Spelling.placed 0 groups, landing.1 = target := by
    intro groups
    simp only [mem_targets_placed, List.map_map, List.mem_map]
    exact ⟨fun h group hgroup target htarget => h target ⟨group, hgroup, htarget⟩,
      fun h target ⟨group, hgroup, htarget⟩ => h group hgroup target htarget⟩
  constructor
  · rintro ⟨decoded, hstream, htargets, hresult⟩
    obtain ⟨groups, hcode, hvalid, rfl⟩ := stream_iff_valid.mp hstream
    exact ⟨groups, ⟨hcode, hvalid, (hlands groups).mp htargets⟩, hresult⟩
  · rintro ⟨groups, ⟨hcode, hvalid, htargets⟩, hresult⟩
    exact ⟨_, stream_iff_valid.mpr ⟨groups, hcode, hvalid, rfl⟩, (hlands groups).mpr htargets,
      hresult⟩

theorem describes_marked (groups : List Spelling) :
    List.Forall₂ (Spelling.Describes isa groups) (Spelling.placed 0 groups)
      (marked ((Spelling.placed 0 groups).map fun group => group.2.instruction isa group.1)) := by
  rw [marked, List.map_map, List.forall₂_map_right_iff, List.forall₂_same]
  refine fun group _ => ⟨rfl, rfl, rfl, rfl, fun argument hargument => ?_, rfl, rfl, ?_⟩
  · have hsome : (if isa.operandKind group.2.opcode = .ok .none then none
        else some group.2.argument) = some argument := hargument
    split at hsome
    · cases hsome
    · cases hsome
      exact (group.2.bytes_eq isa.extension).symm
  · exact decide_eq_true_iff.trans mem_targets_placed

/-- Code is read exactly if it follows the grammar, and then the instructions are its groups in
their order, of which those are marked that some branch lands on. -/
theorem ofCode_grammar (isa : InstructionSet) (code : List UInt8) :
    ((∃ result, ofCode isa code = .ok result) ↔ ∃ groups, Spells isa code groups) ∧
      ∀ groups, Spells isa code groups → ∃ result, ofCode isa code = .ok result ∧
        List.Forall₂ (Spelling.Describes isa groups) (Spelling.placed 0 groups) result := by
  refine ⟨⟨?_, ?_⟩, fun groups hspells => ?_⟩
  · rintro ⟨result, h⟩
    obtain ⟨groups, hspells, -⟩ := ofCode_eq_ok_iff_spells.mp h
    exact ⟨groups, hspells⟩
  · rintro ⟨groups, hspells⟩
    exact ⟨_, ofCode_eq_ok_iff_spells.mpr ⟨groups, hspells, rfl⟩⟩
  · exact ⟨_, ofCode_eq_ok_iff_spells.mpr ⟨groups, hspells, rfl⟩, describes_marked groups⟩

end Decoded
end StackCode
