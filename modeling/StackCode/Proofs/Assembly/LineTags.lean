import StackCode.Proofs.Assembly.Faithful

/-!
Lines of blocks.  Assembled code is on the lines of its blocks: an instruction is on the line of
the nearest block at or in front of its own that has instructions and a line.  In front of all of
these the line of the first of them is taken, and without any the first line of the metadata.
-/

namespace StackCode

open Outcome LineTable

/-- The line that a block puts its instructions on, if it has any. -/
def BasicBlock.tag? (block : BasicBlock) : Option UInt32 :=
  if block.isEmpty then none else block.line

namespace Flat

/-- The line of a block that stands between `front` and `back`. -/
def lineOf (firstLine : UInt32) (front : List BasicBlock) (block : BasicBlock)
    (back : List BasicBlock) : UInt32 :=
  (((front ++ [block]).reverse.findSome? BasicBlock.tag?).or
    ((front ++ block :: back).findSome? BasicBlock.tag?)).getD firstLine

/-! ### Tags of instructions and of blocks -/

theorem findSome?_replicate_line (block : BasicBlock) :
    (List.replicate block.size block.line).findSome? id = block.tag? := by
  rw [List.findSome?_replicate, BasicBlock.tag?, BasicBlock.isEmpty]
  by_cases hempty : block.size = 0
  · simp [hempty]
  · cases block.line <;> simp [hempty]

theorem lastTag_replicate_line (block : BasicBlock) :
    lastTag (List.replicate block.size block.line) = block.tag? := by
  rw [lastTag, List.reverse_replicate, findSome?_replicate_line]

/-- The first line among the instructions is that of the first tagged block. -/
theorem findSome?_tags (blocks : List BasicBlock) :
    (tags blocks).findSome? id = blocks.findSome? BasicBlock.tag? := by
  induction blocks with
  | nil => rfl
  | cons block rest ih =>
    rw [tags_cons, List.findSome?_append, findSome?_replicate_line, ih, List.findSome?_cons]
    cases block.tag? <;> rfl

/-- The last line among the instructions is that of the last tagged block. -/
theorem lastTag_tags (blocks : List BasicBlock) :
    lastTag (tags blocks) = blocks.reverse.findSome? BasicBlock.tag? := by
  induction blocks with
  | nil => rfl
  | cons block rest ih =>
    rw [tags_cons, lastTag_append, lastTag_replicate_line, ih, List.reverse_cons,
      List.findSome?_append, List.findSome?_singleton]

/-- Up to an instruction of a block, the last line is that of the last tagged block. -/
theorem lastTag_take {front back : List BasicBlock} {block : BasicBlock} {index : Nat}
    (hindex : index < block.size) :
    lastTag ((tags (front ++ block :: back)).take (BasicBlock.totalSize front + index + 1)) =
      (front ++ [block]).reverse.findSome? BasicBlock.tag? := by
  have hfront : (tags front).length = BasicBlock.totalSize front := length_tags front
  have htake : (tags (front ++ block :: back)).take (BasicBlock.totalSize front + index + 1) =
      tags front ++ List.replicate (index + 1) block.line := by
    rw [tags_append, tags_cons, Nat.add_assoc, ← hfront, List.take_length_add_append,
      List.take_append_of_le_length (by rw [List.length_replicate]; omega), List.take_replicate,
      Nat.min_eq_left (by omega)]
  have htag : block.tag? = block.line := by
    rw [BasicBlock.tag?, BasicBlock.isEmpty, if_neg (by simp; omega)]
  rw [htake, lastTag_append, lastTag_tags, List.reverse_concat, List.findSome?_cons, htag, lastTag,
    List.reverse_replicate, List.findSome?_replicate_of_pos (Nat.succ_pos index)]
  cases block.line <;> rfl

end Flat

namespace Assembly

/-- Every instruction of assembled code is on the line of its block. -/
theorem assemble_lines {graph : Graph} {settings : AssemblySettings} {assembly : Assembly}
    (h : graph.assemble settings = .ok assembly) :
    ∃ blocks starts decoded, graph.linearize = .ok blocks ∧
      assembly.bytecode.lineStarts = .ok starts ∧
      Decoded.ofBytecode graph.isa assembly.bytecode = .ok decoded ∧
      decoded.length = BasicBlock.totalSize blocks ∧
      ∀ front block back, blocks = front ++ block :: back →
        ∀ index instruction, block.all[index]? = some instruction →
          ∃ d, decoded[BasicBlock.totalSize front + index]? = some d ∧
            d.opcode = instruction.opcode ∧
            lineAt starts (2 * d.offset) =
              some (Flat.lineOf graph.metadata.firstLine front block back) := by
  obtain ⟨blocks, slots, layout, hbuilt⟩ := assemble_eq_ok.mp h
  refine ⟨blocks, _, _, hbuilt.linear, hbuilt.lineStarts, hbuilt.decodes,
    hbuilt.length_listing.trans hbuilt.length_slots, ?_⟩
  rintro front block back rfl index instruction hinstruction
  have hindex : index < block.size := by
    rw [← block.length_all]
    exact (List.getElem?_eq_some_iff.mp hinstruction).1
  have hat : ((front ++ block :: back).flatMap (·.all))[BasicBlock.totalSize front + index]? =
      some instruction := by
    rw [List.flatMap_append, List.flatMap_cons, ← Flat.length_flatMap_all,
      List.getElem?_append_right (Nat.le_add_right _ _), Nat.add_sub_cancel_left,
      List.getElem?_append_left (by rw [block.length_all]; exact hindex)]
    exact hinstruction
  obtain ⟨slot, hslot, hresolved⟩ := exists_of_getElem? hbuilt.resolved hat
  obtain ⟨source, hsource, hopcode, -⟩ := exists_of_getElem? hbuilt.reads hslot
  refine ⟨_, by rw [getElem?_listing, hsource]; rfl, ?_, ?_⟩
  · rw [← hresolved.same]
    exact hopcode
  · rw [hbuilt.lineAt_offset hsource, Flat.lastTag_take hindex, Flat.findSome?_tags, Flat.lineOf]

/-- A graph that starts off without a line, steps over one that has no instructions, and goes back
in the source. -/
def offLine : Graph where
  metadata := default
  isa := .small
  entry := 1
  blocks :=
    [(1, .basic { BasicBlock.empty 1 none with instructions := [.simple 9] }),
     (2, .basic (BasicBlock.empty 2 (some 9))),
     (3, .basic { BasicBlock.empty 3 (some 7) with instructions := [.simple 9, .simple 1] }),
     (4, .basic { BasicBlock.empty 4 (some 3) with instructions := [.simple 9] }),
     (5, .basic { BasicBlock.empty 5 none with instructions := [.simple 83] })]

/-- The code of `offLine`, of which line 7 is the first. -/
def offLineCode : Assembly where
  bytecode :=
    { code := [9, 0, 9, 0, 1, 0, 9, 0, 83, 0], firstLine := 7, lineTable := [2, 0, 4, 252] }
  metadata := default
  stackHeight := none
  passes := 1

theorem offLine_assemble : offLine.assemble .default = .ok offLineCode := by
  have hlinear : offLine.linearize = .ok offLine.leaves :=
    Graph.linearize_chain rfl (by decide) ⟨.inl rfl, .inl rfl, .inl rfl, .inl rfl, rfl⟩ rfl
  rw [Graph.assemble, Graph.flatten, hlinear]
  rfl

/-- The code of `offLine` is on the lines of its blocks. -/
theorem offLine_lines :
    offLine.assemble .default = .ok offLineCode ∧
      ∃ blocks starts decoded, offLine.linearize = .ok blocks ∧
        offLineCode.bytecode.lineStarts = .ok starts ∧
        Decoded.ofBytecode .small offLineCode.bytecode = .ok decoded ∧
        decoded.length = BasicBlock.totalSize blocks ∧
        ∀ front block back, blocks = front ++ block :: back →
          ∀ index instruction, block.all[index]? = some instruction →
            ∃ d, decoded[BasicBlock.totalSize front + index]? = some d ∧
              d.opcode = instruction.opcode ∧
              lineAt starts (2 * d.offset) = some (Flat.lineOf 0 front block back) :=
  ⟨offLine_assemble, assemble_lines offLine_assemble⟩

end Assembly
end StackCode
