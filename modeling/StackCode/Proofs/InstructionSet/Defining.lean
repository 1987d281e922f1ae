import Mathlib.Data.List.Nodup
import StackCode.InstructionSet

/-!
Instruction sets as opcodes are defined.

A definition is entered if neither its opcode nor its mnemonic is taken, and is refused otherwise.  So
opcodes and mnemonics stay one to one, whatever is tried.
-/

namespace StackCode
namespace InstructionSet

/-! ## Lookups -/

theorem find?_eq_some_iff_of_nodup {κ : Type} [DecidableEq κ] {key : Definition → κ}
    {definitions : List Definition} (h : (definitions.map key).Nodup) {wanted : κ}
    {definition : Definition} :
    definitions.find? (fun d => key d = wanted) = some definition ↔
      definition ∈ definitions ∧ key definition = wanted := by
  constructor
  · intro hfind
    exact ⟨List.mem_of_find?_eq_some hfind, by simpa using List.find?_some hfind⟩
  · rintro ⟨hmem, hkey⟩
    have hsome : (definitions.find? fun d => key d = wanted).isSome :=
      List.find?_isSome.mpr ⟨definition, hmem, by simpa using hkey⟩
    obtain ⟨found, hfound⟩ := Option.isSome_iff_exists.mp hsome
    have hwanted : key found = wanted := by simpa using List.find?_some hfound
    have hsame : found = definition :=
      List.inj_on_of_nodup_map h (List.mem_of_find?_eq_some hfound) hmem (hwanted.trans hkey.symm)
    rw [hfound, hsame]

variable {isa next : InstructionSet} {definition : Definition} {opcode : UInt8} {mnemonic : String}

theorem opcodes_nodup (isa : InstructionSet) : (isa.definitions.map Definition.opcode).Nodup :=
  List.pairwise_map.mpr (isa.ascending.imp UInt8.ne_of_lt)

theorem get?_eq_some_iff :
    isa.get? opcode = some definition ↔
      definition ∈ isa.definitions ∧ definition.opcode = opcode :=
  find?_eq_some_iff_of_nodup isa.opcodes_nodup

theorem opcodeOf?_eq_some_iff :
    isa.opcodeOf? mnemonic = some opcode ↔
      ∃ d, isa.get? opcode = some d ∧ d.mnemonic = mnemonic ∧ d.opcode = opcode := by
  simp only [opcodeOf?, Option.map_eq_some_iff, get?_eq_some_iff,
    find?_eq_some_iff_of_nodup isa.mnemonics_nodup]
  constructor
  · rintro ⟨d, ⟨hmem, hname⟩, hopcode⟩
    exact ⟨d, ⟨hmem, hopcode⟩, hname, hopcode⟩
  · rintro ⟨d, ⟨hmem, -⟩, hname, hopcode⟩
    exact ⟨d, ⟨hmem, hname⟩, hopcode⟩

/-! ## One to one -/

/-- What can be asked of a set of opcodes. -/
structure Directory where
  get? : UInt8 → Option Definition
  opcodeOf? : String → Option UInt8
  size : Nat
  listed : List Definition

def directory (isa : InstructionSet) : Directory where
  get? := isa.get?
  opcodeOf? := isa.opcodeOf?
  size := isa.size
  listed := isa.definitions

/-- Each mnemonic has one opcode and each opcode one mnemonic, and the extension has none. -/
structure Directory.OneToOne (directory : Directory) (extension : UInt8) : Prop where
  opcodeOf?_iff : ∀ mnemonic opcode, directory.opcodeOf? mnemonic = some opcode ↔
    ∃ d, directory.get? opcode = some d ∧ d.mnemonic = mnemonic ∧ d.opcode = opcode
  mnemonic_inj : ∀ opcode other d e, directory.get? opcode = some d →
    directory.get? other = some e → d.mnemonic = e.mnemonic → opcode = other
  extension_free : directory.get? extension = none
  size_eq : directory.size = directory.listed.length
  mem_listed : ∀ d, d ∈ directory.listed ↔ directory.get? d.opcode = some d
  ascending : directory.listed.Pairwise fun a b => a.opcode < b.opcode

theorem oneToOne (isa : InstructionSet) : isa.directory.OneToOne isa.extension where
  opcodeOf?_iff _ _ := opcodeOf?_eq_some_iff
  mnemonic_inj opcode other d e hd he hname := by
    obtain ⟨hdmem, rfl⟩ := get?_eq_some_iff.mp hd
    obtain ⟨hemem, rfl⟩ := get?_eq_some_iff.mp he
    rw [List.inj_on_of_nodup_map isa.mnemonics_nodup hdmem hemem hname]
  extension_free := by
    refine Option.eq_none_iff_forall_ne_some.mpr fun d hd => ?_
    obtain ⟨hmem, hopcode⟩ := get?_eq_some_iff.mp hd
    exact isa.extension_free d hmem hopcode
  size_eq := rfl
  mem_listed d := by
    show d ∈ isa.definitions ↔ isa.get? d.opcode = some d
    simp [get?_eq_some_iff]
  ascending := isa.ascending

/-! ## Definitions -/

/-- The opcode is wanted by other means: it is the extension, or taken. -/
def Taken (isa : InstructionSet) (opcode : UInt8) : Prop :=
  opcode = isa.extension ∨ (isa.get? opcode).isSome

/-- `opcode` keeps `definition` out: it is the opcode to be defined and taken, or it has the
mnemonic. -/
def InWay (isa : InstructionSet) (definition : Definition) (opcode : UInt8) : Prop :=
  opcode = definition.opcode ∧ isa.Taken opcode ∨ isa.opcodeOf? definition.mnemonic = some opcode

/-- The ways in which a definition is dealt with. -/
inductive Defines (isa : InstructionSet) (definition : Definition) :
    Except Error InstructionSet → Prop where
  | taken (h : isa.Taken definition.opcode) :
    Defines isa definition (.error (.duplicateOpcode definition.opcode))
  | named (h : ¬isa.Taken definition.opcode) {opcode : UInt8}
    (hname : isa.opcodeOf? definition.mnemonic = some opcode) :
    Defines isa definition (.error (.duplicateOpcode opcode))
  | added (h : ¬isa.Taken definition.opcode) (hname : isa.opcodeOf? definition.mnemonic = none)
    {next : InstructionSet} (hextension : next.extension = isa.extension)
    (hplace : next.definitions = place definition isa.definitions) :
    Defines isa definition (.ok next)

theorem taken_iff : isa.Taken opcode ↔
    opcode = isa.extension ∨ ∃ d ∈ isa.definitions, d.opcode = opcode := by
  simp only [Taken, Option.isSome_iff_exists, get?_eq_some_iff]

theorem defines (isa : InstructionSet) (definition : Definition) :
    isa.Defines definition (isa.define definition) := by
  unfold define
  split
  · rename_i h
    exact .taken (taken_iff.mpr h)
  · rename_i h
    have hfree : ¬isa.Taken definition.opcode := fun htaken => h (taken_iff.mp htaken)
    split
    · rename_i opcode hname
      exact .named hfree hname
    · rename_i hname
      exact .added hfree hname rfl rfl

/-- A definition at its place is found by its own key, and the others by theirs. -/
theorem find?_place {κ : Type} [DecidableEq κ] (key : Definition → κ) (wanted : κ)
    {definitions : List Definition} (hfresh : ∀ d ∈ definitions, key d ≠ key definition) :
    (place definition definitions).find? (fun d => key d = wanted) =
      if key definition = wanted then some definition
      else definitions.find? fun d => key d = wanted := by
  induction definitions with
  | nil => by_cases h : key definition = wanted <;> simp [place, h]
  | cons d rest ih =>
    obtain ⟨hd, hrest⟩ := List.forall_mem_cons.mp hfresh
    unfold place
    split
    · by_cases h : key definition = wanted <;> simp [h]
    · rw [List.find?_cons, ih hrest, List.find?_cons]
      by_cases h : key definition = wanted
      · have hskip : key d ≠ wanted := h ▸ hd
        simp [h, hskip]
      · rw [if_neg h, if_neg h]

theorem get?_of_place (hplace : next.definitions = place definition isa.definitions)
    (hfree : ¬isa.Taken definition.opcode) (opcode : UInt8) :
    next.get? opcode = if definition.opcode = opcode then some definition else isa.get? opcode := by
  have hfresh : ∀ d ∈ isa.definitions, d.opcode ≠ definition.opcode := fun d hd hsame =>
    hfree (taken_iff.mpr (.inr ⟨d, hd, hsame⟩))
  rw [get?, hplace]
  exact find?_place Definition.opcode opcode hfresh

theorem opcodeOf?_of_place (hplace : next.definitions = place definition isa.definitions)
    (hname : isa.opcodeOf? definition.mnemonic = none) (mnemonic : String) :
    next.opcodeOf? mnemonic =
      if definition.mnemonic = mnemonic then some definition.opcode
      else isa.opcodeOf? mnemonic := by
  have hfresh : ∀ d ∈ isa.definitions, d.mnemonic ≠ definition.mnemonic := by
    simpa [opcodeOf?, List.find?_eq_none] using hname
  rw [opcodeOf?, hplace, find?_place Definition.mnemonic mnemonic hfresh]
  exact apply_ite _ _ _ _

theorem size_of_place (hplace : next.definitions = place definition isa.definitions) :
    next.size = isa.size + 1 := by
  rw [size, hplace, (place_perm definition isa.definitions).length_eq, List.length_cons, size]

/-! ## Attempts -/

/-- The set behind a definition.  One that is refused leaves the set alone. -/
def attempt (isa : InstructionSet) (definition : Definition) : InstructionSet :=
  match isa.define definition with
  | .ok next => next
  | .error _ => isa

/-- The set behind definitions that are tried one after the other. -/
def attemptAll (isa : InstructionSet) (definitions : List Definition) : InstructionSet :=
  definitions.foldl attempt isa

theorem extension_attempt (isa : InstructionSet) (definition : Definition) :
    (isa.attempt definition).extension = isa.extension := by
  have hdefines := isa.defines definition
  unfold attempt
  generalize isa.define definition = outcome at hdefines ⊢
  cases hdefines with
  | taken | named => rfl
  | added _ _ hextension _ => exact hextension

theorem extension_attemptAll (definitions : List Definition) :
    ∀ isa : InstructionSet, (isa.attemptAll definitions).extension = isa.extension := by
  induction definitions with
  | nil => exact fun _ => rfl
  | cons definition rest ih =>
    exact fun isa => (ih (isa.attempt definition)).trans (isa.extension_attempt definition)

end InstructionSet
end StackCode
