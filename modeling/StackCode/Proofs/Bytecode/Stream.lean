import StackCode.Proofs.Bytecode.Units
import StackCode.Proofs.Outcome

/-!
Streams: what reading code to its end gives.  `Stream` relates encoded code to its instructions
without the fuel of the reader, and `Tiled` is what it says about their places: each starts where
the one in front of it ends.
-/

namespace StackCode
namespace Decoded

open Outcome

/-- `code`, which stands at `unit`, reads as these instructions. -/
inductive Stream (isa : InstructionSet) : (unit : Nat) → (code : List UInt8) → List Decoded → Prop
  | nil (unit : Nat) : Stream isa unit [] []
  | cons {unit : Nat} {code rest : List UInt8} {first : Decoded} {others : List Decoded}
      (hread : read isa unit code = .ok (first, rest)) (hrest : Stream isa first.next rest others) :
      Stream isa unit code (first :: others)

/-- The instructions stand one behind the other, from `unit` on. -/
def Tiled : (unit : Nat) → List Decoded → Prop
  | _, [] => True
  | unit, first :: others => first.offset = unit ∧ 0 < first.size ∧ Tiled first.next others

/-- The unit behind the instructions that start at `unit`. -/
def stopFrom : (unit : Nat) → List Decoded → Nat
  | unit, [] => unit
  | _, first :: others => stopFrom first.next others

/-! ### Single instructions -/

theorem read_eq_ok {isa : InstructionSet} {unit : Nat} {bytes rest : List UInt8}
    {decoded : Decoded} :
    read isa unit bytes = .ok (decoded, rest) ↔
      ∃ group, Group.read isa.extension unit 0 0 bytes = .ok (group, rest) ∧
        ofGroup isa unit group = .ok decoded := by
  rw [read]
  cases hgroup : Group.read isa.extension unit 0 0 bytes with
  | error error => simp
  | ok result =>
    obtain ⟨group, rest'⟩ := result
    cases hdecoded : ofGroup isa unit group with
    | error error => simp [hdecoded]
    | ok first =>
      simp only [hdecoded]
      constructor
      · intro h
        cases h
        exact ⟨group, rfl, hdecoded⟩
      · rintro ⟨other, hother, hfirst⟩
        cases hother
        rw [hdecoded] at hfirst
        cases hfirst
        rfl

theorem ofGroup_eq_ok {isa : InstructionSet} {unit : Nat} {group : Group} {decoded : Decoded} :
    ofGroup isa unit group = .ok decoded ↔
      ∃ kind target, isa.operandKind group.opcode = .ok kind ∧
        group.target unit kind = .ok target ∧
        decoded =
          { offset := unit
            size := group.size
            opcode := group.opcode
            argument := if kind = .none then none else some group.argument
            target
            line := none
            isTarget := false } := by
  simp only [ofGroup, bind_eq_ok, pure_eq_ok]
  constructor
  · rintro ⟨kind, hkind, target, htarget, h⟩
    exact ⟨kind, target, hkind, htarget, h.symm⟩
  · rintro ⟨kind, target, hkind, htarget, h⟩
    exact ⟨kind, hkind, target, htarget, h.symm⟩

/-- Exactly branches have a target. -/
theorem Group.isSome_target {group : Group} {unit : Nat} {kind : OperandKind}
    {target : Option Nat} (h : group.target unit kind = .ok target) :
    target.isSome = kind.isJump := by
  unfold Group.target at h
  split at h
  · cases h
    rfl
  · dsimp only at h
    split at h
    · cases h
      rfl
    · cases h
  · cases h
    cases kind <;> first | rfl | contradiction

/-- What the reader promises about each instruction, wherever it stands. -/
structure Wellread (isa : InstructionSet) (decoded : Decoded) : Prop where
  size_pos : 0 < decoded.size
  line : decoded.line = none
  kind : ∃ kind, isa.operandKind decoded.opcode = .ok kind ∧
    decoded.target.isSome = kind.isJump
  argument_lt : ∀ argument, decoded.argument = some argument → argument < 0x100000000

theorem read_wellread {isa : InstructionSet} {unit : Nat} {bytes rest : List UInt8}
    {decoded : Decoded} (h : read isa unit bytes = .ok (decoded, rest)) :
    Wellread isa decoded ∧ decoded.offset = unit ∧
      bytes.length = 2 * decoded.size + rest.length := by
  obtain ⟨group, hgroup, hdecoded⟩ := read_eq_ok.mp h
  obtain ⟨kind, target, hkind, htarget, rfl⟩ := ofGroup_eq_ok.mp hdecoded
  obtain ⟨hsize, hmax, hopcode, hfits, hlength⟩ := Group.read_eq_ok (Nat.zero_le _) hgroup
  refine ⟨⟨hsize, rfl, ⟨kind, hkind, Group.isSome_target htarget⟩, ?_⟩, rfl,
    by simpa using hlength⟩
  intro argument hargument
  have hgroup_lt : group.argument < 0x100000000 := by
    have hbytes : 256 ^ group.size ≤ 256 ^ 4 := Nat.pow_le_pow_right (by omega) hmax
    exact Nat.lt_of_lt_of_le (hfits (by omega)) hbytes
  by_cases hnone : kind = .none
  · simp [hnone] at hargument
  · simp only [hnone, if_false, Option.some.injEq] at hargument
    omega

/-! ### Whole streams -/

theorem Stream.length_code {isa : InstructionSet} {unit : Nat} {code : List UInt8}
    {decoded : List Decoded} (h : Stream isa unit code decoded) :
    stopFrom unit decoded = unit + code.length / 2 ∧ code.length % 2 = 0 := by
  induction h with
  | nil unit => exact ⟨rfl, rfl⟩
  | cons hread hrest ih =>
    obtain ⟨-, hoffset, hlength⟩ := read_wellread hread
    obtain ⟨hstop, heven⟩ := ih
    rw [stopFrom, hstop, next, hoffset, hlength]
    omega

theorem Stream.tiled {isa : InstructionSet} {unit : Nat} {code : List UInt8}
    {decoded : List Decoded} (h : Stream isa unit code decoded) : Tiled unit decoded := by
  induction h with
  | nil unit => exact trivial
  | cons hread hrest ih =>
    obtain ⟨hwell, hoffset, -⟩ := read_wellread hread
    exact ⟨hoffset, hwell.size_pos, ih⟩

theorem Stream.wellread {isa : InstructionSet} {unit : Nat} {code : List UInt8}
    {decoded : List Decoded} (h : Stream isa unit code decoded) :
    ∀ d ∈ decoded, Wellread isa d := by
  induction h with
  | nil unit => simp
  | cons hread hrest ih =>
    intro d hd
    rcases List.mem_cons.mp hd with rfl | hd
    · exact (read_wellread hread).1
    · exact ih d hd

theorem stream_iff_of_ne_nil {isa : InstructionSet} {unit : Nat} {code : List UInt8}
    {decoded : List Decoded} (hcode : code ≠ []) :
    Stream isa unit code decoded ↔
      ∃ first rest others, read isa unit code = .ok (first, rest) ∧
        Stream isa first.next rest others ∧ decoded = first :: others := by
  constructor
  · intro h
    cases h with
    | nil => exact absurd rfl hcode
    | cons hread hrest => exact ⟨_, _, _, hread, hrest, rfl⟩
  · rintro ⟨first, rest, others, hread, hrest, rfl⟩
    exact .cons hread hrest

/-- With fuel for every unit, the reader gives exactly the instructions of the stream. -/
theorem readAll_eq_ok {isa : InstructionSet} {fuel unit : Nat} {code : List UInt8}
    {done result : List Decoded} (hfuel : code.length ≤ 2 * fuel) :
    readAll isa fuel unit code done = .ok result ↔
      ∃ decoded, Stream isa unit code decoded ∧ result = done.reverse ++ decoded := by
  fun_induction readAll isa fuel unit code done with
  | case1 fuel unit done =>
    constructor
    · intro h
      cases h
      exact ⟨[], .nil unit, by simp⟩
    · rintro ⟨decoded, hstream, rfl⟩
      have hstop := hstream.length_code.1
      cases hstream with
      | nil => simp
      | cons hread hrest =>
        have hpos := (read_wellread hread).1.size_pos
        have hlength := (read_wellread hread).2.2
        rw [List.length_nil] at hlength
        omega
  | case2 unit byte rest done => simp at hfuel
  | case3 fuel unit code done hcode error hread =>
    simp [stream_iff_of_ne_nil hcode, hread]
  | case4 fuel unit code done hcode first rest hread ih =>
    obtain ⟨hwell, -, hlength⟩ := read_wellread hread
    have hpos := hwell.size_pos
    rw [ih (by omega)]
    constructor
    · rintro ⟨decoded, hstream, rfl⟩
      exact ⟨first :: decoded, .cons hread hstream, by simp⟩
    · rintro ⟨decoded, hstream, rfl⟩
      obtain ⟨first', rest', others, hread', hrest, rfl⟩ := (stream_iff_of_ne_nil hcode).mp hstream
      rw [hread] at hread'
      cases hread'
      exact ⟨others, hrest, by simp⟩

/-! ### Branch targets -/

/-- The units that the branches land on. -/
def targets (decoded : List Decoded) : List Nat := decoded.filterMap (·.target)

/-- The instructions, with those marked that some branch lands on. -/
def marked (decoded : List Decoded) : List Decoded :=
  decoded.map fun d => { d with isTarget := decide (d.offset ∈ targets decoded) }

theorem mem_targets {decoded : List Decoded} {unit : Nat} :
    unit ∈ targets decoded ↔ ∃ d ∈ decoded, d.target = some unit := List.mem_filterMap

theorem markTargets_eq_ok {decoded result : List Decoded} :
    markTargets decoded = .ok result ↔
      (∀ unit ∈ targets decoded, unit ∈ decoded.map (·.offset)) ∧ result = marked decoded := by
  have hcontains : ∀ (units : List Nat) (unit : Nat),
      (Std.HashSet.ofList units).contains unit = decide (unit ∈ units) := by
    intro units unit
    rw [Std.HashSet.contains_ofList, List.contains_eq_mem]
  rw [markTargets]
  split
  case h_1 stray hstray =>
    have hmem : stray ∈ targets decoded := List.mem_of_find?_eq_some hstray
    have hout := List.find?_some hstray
    simp only [hcontains, Bool.not_eq_true', decide_eq_false_iff_not] at hout
    constructor
    · intro h
      cases h
    · rintro ⟨h, -⟩
      exact absurd (h stray hmem) hout
  case h_2 hnone =>
    have hin : ∀ unit ∈ targets decoded, unit ∈ decoded.map (·.offset) := by
      intro unit hunit
      have := List.find?_eq_none.mp hnone unit hunit
      simpa [hcontains] using this
    simp only [hcontains, Except.ok.injEq]
    constructor
    · intro h
      exact ⟨hin, h.symm⟩
    · rintro ⟨-, h⟩
      exact h.symm

/-- Code is read to its end exactly if it is a stream whose branches land on its
instructions. -/
theorem ofCode_eq_ok {isa : InstructionSet} {code : List UInt8} {result : List Decoded} :
    ofCode isa code = .ok result ↔
      ∃ decoded, Stream isa 0 code decoded ∧
        (∀ unit ∈ targets decoded, unit ∈ decoded.map (·.offset)) ∧ result = marked decoded := by
  rw [ofCode]
  by_cases hodd : code.length % 2 = 1
  · rw [if_pos hodd]
    constructor
    · intro h
      cases h
    · rintro ⟨decoded, hstream, -⟩
      have := hstream.length_code.2
      omega
  · rw [if_neg hodd]
    have hread : ∀ all, readAll isa (code.length / 2) 0 code [] = .ok all ↔
        ∃ decoded, Stream isa 0 code decoded ∧ all = decoded := fun all =>
      readAll_eq_ok (by omega)
    constructor
    · intro h
      split at h
      · cases h
      · rename_i all hall
        obtain ⟨decoded, hstream, rfl⟩ := (hread all).mp hall
        obtain ⟨htargets, hresult⟩ := markTargets_eq_ok.mp h
        exact ⟨_, hstream, htargets, hresult⟩
    · rintro ⟨decoded, hstream, htargets, hresult⟩
      rw [(hread decoded).mpr ⟨decoded, hstream, rfl⟩]
      exact markTargets_eq_ok.mpr ⟨htargets, hresult⟩

/-! ### Places -/

theorem Tiled.offset_ge {unit : Nat} {decoded : List Decoded} (h : Tiled unit decoded) :
    ∀ d ∈ decoded, unit ≤ d.offset := by
  induction decoded generalizing unit with
  | nil => simp
  | cons first others ih =>
    obtain ⟨hoffset, hpos, hrest⟩ := h
    intro d hd
    rcases List.mem_cons.mp hd with rfl | hd
    · omega
    · have := ih hrest d hd
      rw [next] at this
      omega

theorem Tiled.le_stopFrom {unit : Nat} {decoded : List Decoded} (h : Tiled unit decoded) :
    unit ≤ stopFrom unit decoded := by
  induction decoded generalizing unit with
  | nil => exact Nat.le_refl _
  | cons first others ih =>
    obtain ⟨hoffset, hpos, hrest⟩ := h
    have := ih hrest
    rw [next] at this
    rw [stopFrom, next]
    omega

theorem Tiled.offset_lt_stopFrom {unit : Nat} {decoded : List Decoded} (h : Tiled unit decoded) :
    ∀ d ∈ decoded, d.offset < stopFrom unit decoded := by
  induction decoded generalizing unit with
  | nil => simp
  | cons first others ih =>
    obtain ⟨hoffset, hpos, hrest⟩ := h
    intro d hd
    rcases List.mem_cons.mp hd with rfl | hd
    · have := Tiled.le_stopFrom hrest
      rw [next] at this
      rw [stopFrom, next]
      omega
    · exact ih hrest d hd

/-- Instructions stand in ascending order of their offsets. -/
theorem Tiled.pairwise {unit : Nat} {decoded : List Decoded} (h : Tiled unit decoded) :
    (decoded.map (·.offset)).Pairwise (· < ·) := by
  induction decoded generalizing unit with
  | nil => simp
  | cons first others ih =>
    obtain ⟨hoffset, hpos, hrest⟩ := h
    rw [List.map_cons, List.pairwise_cons]
    refine ⟨fun offset hmem => ?_, ih hrest⟩
    obtain ⟨d, hd, rfl⟩ := List.mem_map.mp hmem
    have := Tiled.offset_ge hrest d hd
    rw [next] at this
    omega

theorem Tiled.nodup {unit : Nat} {decoded : List Decoded} (h : Tiled unit decoded) :
    (decoded.map (·.offset)).Nodup :=
  h.pairwise.imp fun hlt => Nat.ne_of_lt hlt

/-- No two instructions stand at one place. -/
theorem Tiled.index_eq {unit : Nat} {decoded : List Decoded} (h : Tiled unit decoded)
    {index index' : Nat} {d d' : Decoded} (hd : decoded[index]? = some d)
    (hd' : decoded[index']? = some d') (hsame : d.offset = d'.offset) : index = index' := by
  obtain ⟨hlt, -⟩ := List.getElem?_eq_some_iff.mp hd
  refine (List.getElem?_inj (by rwa [List.length_map]) h.nodup).mp ?_
  rw [List.getElem?_map, List.getElem?_map, hd, hd', Option.map_some, Option.map_some, hsame]

/-! Marks and lines leave instructions where they are. -/

section Kept

variable (change : Decoded → Decoded) (hoffset : ∀ d, (change d).offset = d.offset)
  (hsize : ∀ d, (change d).size = d.size)
include hoffset

theorem offsets_map (decoded : List Decoded) :
    (decoded.map change).map (·.offset) = decoded.map (·.offset) := by
  rw [List.map_map]
  exact List.map_congr_left fun d _ => hoffset d

include hsize

theorem next_change (d : Decoded) : (change d).next = d.next := by
  rw [next, next, hoffset, hsize]

theorem stopFrom_map (unit : Nat) (decoded : List Decoded) :
    stopFrom unit (decoded.map change) = stopFrom unit decoded := by
  induction decoded generalizing unit with
  | nil => rfl
  | cons first others ih =>
    rw [List.map_cons, stopFrom, stopFrom, ih, next_change change hoffset hsize]

theorem tiled_map {unit : Nat} {decoded : List Decoded} (h : Tiled unit decoded) :
    Tiled unit (decoded.map change) := by
  induction decoded generalizing unit with
  | nil => exact trivial
  | cons first others ih =>
    obtain ⟨hfirst, hpos, hrest⟩ := h
    refine ⟨by rw [hoffset, hfirst], by rw [hsize]; exact hpos, ?_⟩
    rw [next_change change hoffset hsize]
    exact ih hrest

end Kept

theorem offsets_marked (decoded : List Decoded) :
    (marked decoded).map (·.offset) = decoded.map (·.offset) :=
  offsets_map _ (by intro d; rfl) decoded

theorem stopFrom_marked (unit : Nat) (decoded : List Decoded) :
    stopFrom unit (marked decoded) = stopFrom unit decoded :=
  stopFrom_map _ (by intro d; rfl) (by intro d; rfl) unit decoded

theorem Tiled.marked {unit : Nat} {decoded : List Decoded} (h : Tiled unit decoded) :
    Tiled unit (marked decoded) :=
  tiled_map _ (by intro d; rfl) (by intro d; rfl) h

/-- Where the last instruction ends. -/
theorem getLast?_next (unit : Nat) (decoded : List Decoded) :
    (decoded.getLast?.map (·.next)).getD unit = stopFrom unit decoded := by
  induction decoded generalizing unit with
  | nil => rfl
  | cons first others ih =>
    rw [stopFrom, ← ih first.next]
    cases others with
    | nil => rfl
    | cons second rest => rw [List.getLast?_cons_cons, List.getLast?_cons]; rfl

end Decoded
end StackCode
