import Mathlib.Data.List.Sort
import StackCode.Proofs.InstructionSet.Defining

/-!
Instruction sets that are kept in slots.

With a slot for each opcode and a map from mnemonics to opcodes, a definition is found without a search.
A definition is entered into both or into neither, so they stay in step, and what can be asked of such
slots is answered as by the `InstructionSet` behind the same definitions.
-/

namespace StackCode

/-- A slot for each opcode, and beside them the opcode of each mnemonic. -/
structure OpcodeSlots where
  extension : UInt8
  slots : Vector (Option Definition) UInt8.size
  mnemonics : Std.HashMap String UInt8

namespace OpcodeSlots

def empty (extension : UInt8) : OpcodeSlots where
  extension := extension
  slots := .replicate UInt8.size none
  mnemonics := ∅

def get? (table : OpcodeSlots) (opcode : UInt8) : Option Definition :=
  table.slots[opcode.toFin]

/-- The definitions in ascending order of opcodes. -/
def listed (table : OpcodeSlots) : List Definition := table.slots.toList.filterMap id

def directory (table : OpcodeSlots) : InstructionSet.Directory where
  get? := table.get?
  opcodeOf? mnemonic := table.mnemonics[mnemonic]?
  size := table.mnemonics.size
  listed := table.listed

/-- Puts a definition into its slot and its mnemonic into the map. -/
def enter (table : OpcodeSlots) (definition : Definition) : OpcodeSlots :=
  { table with
    slots := table.slots.set definition.opcode.toFin (some definition) definition.opcode.toFin.isLt
    mnemonics := table.mnemonics.insert definition.mnemonic definition.opcode }

/-- Enters a definition unless an opcode is in the way. -/
def define (table : OpcodeSlots) (definition : Definition) : Except Error Unit × OpcodeSlots :=
  if (table.get? definition.opcode).isSome || definition.opcode = table.extension then
    (.error (.duplicateOpcode definition.opcode), table)
  else
    match table.mnemonics[definition.mnemonic]? with
    | some opcode => (.error (.duplicateOpcode opcode), table)
    | none => (.ok (), table.enter definition)

/-- The slots behind definitions that are tried one after the other. -/
def defineAll (table : OpcodeSlots) (definitions : List Definition) : OpcodeSlots :=
  definitions.foldl (fun table definition => (table.define definition).2) table

/-! ## Slots and map in step -/

/-- The slots and the map have what the instruction set has. -/
structure InStep (table : OpcodeSlots) (isa : InstructionSet) : Prop where
  extension : table.extension = isa.extension
  get? : ∀ opcode, table.get? opcode = isa.get? opcode
  opcodeOf? : ∀ mnemonic, table.mnemonics[mnemonic]? = isa.opcodeOf? mnemonic
  size : table.mnemonics.size = isa.size

variable {table : OpcodeSlots} {isa : InstructionSet}

theorem inStep_empty (extension : UInt8) : InStep (empty extension) (.empty extension) where
  extension := rfl
  get? opcode := Vector.getElem_replicate opcode.toFin.isLt
  opcodeOf? _ := Std.HashMap.getElem?_empty
  size := Std.HashMap.size_empty

/-- A slot holds the definition of its own opcode. -/
theorem InStep.opcode_eq (h : table.InStep isa) {place : Nat} (hplace : place < UInt8.size)
    {definition : Definition} (hslot : table.slots[place] = some definition) :
    definition.opcode.toNat = place ∧ isa.get? definition.opcode = some definition := by
  have hget : isa.get? (.ofFin ⟨place, hplace⟩) = some definition :=
    (h.get? (.ofFin ⟨place, hplace⟩)).symm.trans hslot
  obtain ⟨-, hopcode⟩ := InstructionSet.get?_eq_some_iff.mp hget
  rw [hopcode]
  exact ⟨rfl, hget⟩

theorem InStep.mem_listed (h : table.InStep isa) (definition : Definition) :
    definition ∈ table.listed ↔ definition ∈ isa.definitions := by
  simp only [listed, List.mem_filterMap, id_eq, exists_eq_right, Vector.mem_toList_iff,
    Vector.mem_iff_getElem]
  constructor
  · rintro ⟨place, hplace, hslot⟩
    exact (InstructionSet.get?_eq_some_iff.mp (h.opcode_eq hplace hslot).2).1
  · intro hmem
    have hget : table.get? definition.opcode = some definition :=
      (h.get? definition.opcode).trans (InstructionSet.get?_eq_some_iff.mpr ⟨hmem, rfl⟩)
    exact ⟨definition.opcode.toNat, definition.opcode.toFin.isLt, hget⟩

theorem InStep.listed_ascending (h : table.InStep isa) :
    table.listed.Pairwise fun a b => a.opcode < b.opcode := by
  refine List.pairwise_filterMap.mpr (List.pairwise_iff_getElem.mpr ?_)
  intro i j hi hj hlt a ha b hb
  rw [Vector.length_toList] at hi hj
  rw [Vector.getElem_toList] at ha hb
  rw [UInt8.lt_iff_toNat_lt, (h.opcode_eq hi ha).1, (h.opcode_eq hj hb).1]
  exact hlt

/-- The slots in their order have the definitions in theirs. -/
theorem InStep.listed_eq (h : table.InStep isa) : table.listed = isa.definitions := by
  have hnodup : ∀ {definitions : List Definition},
      definitions.Pairwise (fun a b => a.opcode < b.opcode) → definitions.Nodup := fun hascending =>
    hascending.imp fun hlt hsame => UInt8.ne_of_lt hlt (congrArg Definition.opcode hsame)
  refine List.Perm.eq_of_pairwise (fun a b _ _ hab hba => ?_) h.listed_ascending isa.ascending ?_
  · exact absurd hba (UInt8.lt_asymm hab)
  · exact (List.perm_ext_iff_of_nodup (hnodup h.listed_ascending) (hnodup isa.ascending)).mpr
      h.mem_listed

/-- What can be asked of the slots is answered as by the instruction set. -/
theorem InStep.directory_eq (h : table.InStep isa) : table.directory = isa.directory := by
  rw [directory, InstructionSet.directory, h.listed_eq, h.size, funext h.get?,
    funext h.opcodeOf?]

/-! ## Definitions -/

theorem get?_enter (table : OpcodeSlots) (definition : Definition) (opcode : UInt8) :
    (table.enter definition).get? opcode =
      if definition.opcode = opcode then some definition else table.get? opcode := by
  rw [get?, enter, Fin.getElem_fin, Vector.getElem_set, get?, Fin.getElem_fin]
  simp [UInt8.toNat_inj, ← UInt8.toFin_inj]

theorem mnemonics_enter (table : OpcodeSlots) (definition : Definition) :
    (table.enter definition).mnemonics =
      table.mnemonics.insert definition.mnemonic definition.opcode := rfl

theorem define_of_taken (h : table.InStep isa) {definition : Definition}
    (htaken : isa.Taken definition.opcode) :
    table.define definition = (.error (.duplicateOpcode definition.opcode), table) := by
  rw [define, if_pos]
  rw [h.get?, h.extension, Bool.or_eq_true, decide_eq_true_iff]
  exact htaken.symm

theorem define_of_free (h : table.InStep isa) {definition : Definition}
    (hfree : ¬isa.Taken definition.opcode) :
    table.define definition =
      match isa.opcodeOf? definition.mnemonic with
      | some opcode => (.error (.duplicateOpcode opcode), table)
      | none => (.ok (), table.enter definition) := by
  rw [define, if_neg, h.opcodeOf?]
  rw [h.get?, h.extension, Bool.or_eq_true, decide_eq_true_iff]
  exact fun htaken => hfree htaken.symm

/-- A definition that is entered is entered into both. -/
theorem InStep.enter (h : table.InStep isa) {next : InstructionSet} {definition : Definition}
    (hfree : ¬isa.Taken definition.opcode) (hname : isa.opcodeOf? definition.mnemonic = none)
    (hextension : next.extension = isa.extension)
    (hplace : next.definitions = InstructionSet.place definition isa.definitions) :
    InStep (table.enter definition) next where
  extension := h.extension.trans hextension.symm
  get? opcode := by
    rw [InstructionSet.get?_of_place hplace hfree, ← h.get?]
    exact table.get?_enter definition opcode
  opcodeOf? mnemonic := by
    rw [InstructionSet.opcodeOf?_of_place hplace hname, ← h.opcodeOf?, mnemonics_enter,
      Std.HashMap.getElem?_insert]
    simp
  size := by
    have hnew : definition.mnemonic ∉ table.mnemonics := by
      rw [Std.HashMap.mem_iff_isSome_getElem?, h.opcodeOf?, hname]
      exact Bool.false_ne_true
    rw [InstructionSet.size_of_place hplace, ← h.size, mnemonics_enter, Std.HashMap.size_insert,
      if_neg hnew]

/-- Both deal with a definition in the same way and stay in step. -/
theorem InStep.define (h : table.InStep isa) (definition : Definition) :
    (table.define definition).1 = (isa.define definition).map (fun _ => ()) ∧
      InStep (table.define definition).2 (isa.attempt definition) := by
  have hdefines := isa.defines definition
  unfold InstructionSet.attempt
  generalize isa.define definition = outcome at hdefines ⊢
  cases hdefines with
  | taken htaken =>
    rw [define_of_taken h htaken]
    exact ⟨rfl, h⟩
  | named hfree hname =>
    rw [define_of_free h hfree, hname]
    exact ⟨rfl, h⟩
  | added hfree hname hextension hplace =>
    rw [define_of_free h hfree, hname]
    exact ⟨rfl, h.enter hfree hname hextension hplace⟩

theorem InStep.defineAll (definitions : List Definition) :
    ∀ {table : OpcodeSlots} {isa : InstructionSet}, table.InStep isa →
      InStep (table.defineAll definitions) (isa.attemptAll definitions) := by
  induction definitions with
  | nil => exact fun h => h
  | cons definition rest ih => exact fun h => ih (h.define definition).2

/-- How slots, and the instruction set behind them, deal with a definition. -/
structure DealsWith (table : OpcodeSlots) (isa : InstructionSet) (definition : Definition) :
    Prop where
  outcome : (table.define definition).1 = (isa.define definition).map fun _ => ()
  /-- One that is refused changes nothing, and the error names the opcode in the way. -/
  refused : ∀ error, isa.define definition = .error error →
    (table.define definition).2 = table ∧ isa.attempt definition = isa ∧
      ∃ opcode, error = .duplicateOpcode opcode ∧ isa.InWay definition opcode
  /-- One that is entered has no opcode in its way and changes nothing else. -/
  entered : ∀ next, isa.define definition = .ok next →
    (∀ opcode, ¬isa.InWay definition opcode) ∧
      ∀ opcode, next.get? opcode =
        if definition.opcode = opcode then some definition else isa.get? opcode

theorem InStep.dealsWith (h : table.InStep isa) (definition : Definition) :
    table.DealsWith isa definition where
  outcome := (h.define definition).1
  refused error herror := by
    have hdefines := isa.defines definition
    have hattempt : isa.attempt definition = isa := by rw [InstructionSet.attempt, herror]
    rw [herror] at hdefines
    cases hdefines with
    | taken htaken =>
      rw [define_of_taken h htaken]
      exact ⟨rfl, hattempt, definition.opcode, rfl, .inl ⟨rfl, htaken⟩⟩
    | named hfree hname =>
      rw [define_of_free h hfree, hname]
      exact ⟨rfl, hattempt, _, rfl, .inr hname⟩
  entered next hnext := by
    have hdefines := isa.defines definition
    rw [hnext] at hdefines
    cases hdefines with
    | added hfree hname _ hplace =>
      refine ⟨fun opcode hway => ?_, InstructionSet.get?_of_place hplace hfree⟩
      rcases hway with ⟨rfl, htaken⟩ | hother
      · exact hfree htaken
      · rw [hname] at hother
        cases hother

/-- Whatever is defined, with success or without, opcodes and mnemonics stay one to one and the
extension stays free.  Slots and map together always answer as the instruction set does, and both refuse
a definition exactly if an opcode is in its way. -/
theorem defineAll_oneToOne (extension : UInt8) (definitions : List Definition) :
    ((empty extension).defineAll definitions).directory =
        ((InstructionSet.empty extension).attemptAll definitions).directory ∧
      ((InstructionSet.empty extension).attemptAll definitions).directory.OneToOne extension ∧
      ∀ definition, ((empty extension).defineAll definitions).DealsWith
        ((InstructionSet.empty extension).attemptAll definitions) definition := by
  have hstep := (inStep_empty extension).defineAll definitions
  have hextension := InstructionSet.extension_attemptAll definitions (.empty extension)
  have honeToOne := ((InstructionSet.empty extension).attemptAll definitions).oneToOne
  rw [hextension] at honeToOne
  exact ⟨hstep.directory_eq, honeToOne, hstep.dealsWith⟩

end OpcodeSlots
end StackCode
