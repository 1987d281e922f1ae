import Mathlib.Data.List.Nodup
import StackCode.Graph.Basic
import StackCode.InstructionSet.Small

/-!
Fresh ids.

Blocks and containers share one space of ids, at every depth.  A child may stand under a key that is
not its id, so what is fresh is said of the blocks themselves and not of the keys.  The greatest id,
the leaves and the search for a leaf each walk down the containers in a recursion of their own, and
the lemmas here tie the three to the blocks that stand inside.
-/

namespace StackCode
namespace Block

/-- The block stands among these entries, or in a container among them, at whatever depth. -/
inductive Inside (block : Block) : List (Nat × Block) → Prop where
  | here {key : Nat} {entries : List (Nat × Block)} (h : (key, block) ∈ entries) :
    Inside block entries
  | deeper {key id : Nat} {children entries : List (Nat × Block)}
    (h : (key, .group id children) ∈ entries) (hinside : Inside block children) :
    Inside block entries

theorem Inside.mono {block : Block} {entries others : List (Nat × Block)}
    (h : block.Inside entries) (hsub : entries ⊆ others) : block.Inside others := by
  cases h with
  | here hmem => exact .here (hsub hmem)
  | deeper hmem hinside => exact .deeper (hsub hmem) hinside

theorem Inside.tail {block : Block} {entry : Nat × Block} {rest : List (Nat × Block)}
    (h : block.Inside rest) : block.Inside (entry :: rest) :=
  h.mono (List.subset_cons_self entry rest)

/-! ### Leaves -/

theorem leavesOf_append (front back : List (Nat × Block)) :
    leavesOf (front ++ back) = leavesOf front ++ leavesOf back := by
  induction front with
  | nil => rfl
  | cons entry rest ih => rw [List.cons_append, leavesOf, leavesOf, ih, List.append_assoc]

/-- The leaves stand inside. -/
theorem inside_of_mem_leavesOf {leaf : BasicBlock} :
    ∀ {entries : List (Nat × Block)}, leaf ∈ leavesOf entries → Inside (.basic leaf) entries
  | (key, .basic block) :: rest, h => by
    rcases List.mem_append.mp h with h | h
    · cases List.mem_singleton.mp h
      exact .here List.mem_cons_self
    · exact (inside_of_mem_leavesOf h).tail
  | (key, .group id children) :: rest, h => by
    rcases List.mem_append.mp h with h | h
    · exact .deeper List.mem_cons_self (inside_of_mem_leavesOf h)
    · exact (inside_of_mem_leavesOf h).tail

/-! ### The greatest id -/

theorem id_le_maxId (block : Block) : block.id ≤ block.maxId := by
  cases block with
  | basic block => exact Nat.le_refl block.id
  | group id children => exact Nat.le_max_left id (maxIdOf children)

theorem maxId_le_of_mem {key : Nat} {child : Block} {entries : List (Nat × Block)}
    (h : (key, child) ∈ entries) : child.maxId ≤ maxIdOf entries := by
  induction entries with
  | nil => cases h
  | cons entry rest ih =>
    rw [maxIdOf]
    rcases List.mem_cons.mp h with rfl | h
    · exact Nat.le_max_left child.maxId (maxIdOf rest)
    · exact Nat.le_trans (ih h) (Nat.le_max_right entry.2.maxId (maxIdOf rest))

/-- No block inside has an id beyond the greatest one. -/
theorem Inside.id_le {block : Block} {entries : List (Nat × Block)} (h : block.Inside entries) :
    block.id ≤ maxIdOf entries := by
  induction h with
  | here hmem => exact Nat.le_trans block.id_le_maxId (maxId_le_of_mem hmem)
  | @deeper key id children entries hmem _ ih =>
    have hchildren : maxIdOf children ≤ (group id children).maxId :=
      Nat.le_max_right id (maxIdOf children)
    exact Nat.le_trans ih (Nat.le_trans hchildren (maxId_le_of_mem hmem))

/-- The greatest id is that of a block inside, so that it stays below what bounds them all. -/
theorem maxIdOf_le {bound : Nat} :
    ∀ {entries : List (Nat × Block)}, (∀ block : Block, block.Inside entries → block.id ≤ bound) →
      maxIdOf entries ≤ bound
  | [], _ => Nat.zero_le bound
  | (_, .basic block) :: rest, h =>
    Nat.max_le.mpr ⟨h (.basic block) (.here List.mem_cons_self),
      maxIdOf_le fun other hother => h other hother.tail⟩
  | (_, .group id children) :: rest, h =>
    Nat.max_le.mpr ⟨Nat.max_le.mpr ⟨h (.group id children) (.here List.mem_cons_self),
        maxIdOf_le fun other hother => h other (.deeper List.mem_cons_self hother)⟩,
      maxIdOf_le fun other hother => h other hother.tail⟩

/-! ### Looking up -/

mutual

/-- The first basic block inside with the given id.  The search walks down the containers. -/
def find? (id : Nat) : Block → Option BasicBlock
  | basic block => if block.id = id then some block else none
  | group _ children => findIn? id children

def findIn? (id : Nat) : List (Nat × Block) → Option BasicBlock
  | [] => none
  | (_, child) :: rest => (child.find? id).or (findIn? id rest)

end

mutual

theorem find?_eq (id : Nat) : ∀ block : Block, block.find? id = block.leaves.find? (·.id = id)
  | .basic block => by
    rw [find?, leaves, List.find?_singleton]
    simp
  | .group own children => by rw [find?, leaves, findIn?_eq id children]

/-- The search finds the first of the leaves with the id. -/
theorem findIn?_eq (id : Nat) :
    ∀ entries : List (Nat × Block), findIn? id entries = (leavesOf entries).find? (·.id = id)
  | [] => rfl
  | (_, child) :: rest => by
    rw [findIn?, leavesOf, List.find?_append, find?_eq id child, findIn?_eq id rest]

end

end Block

namespace Graph

/-- Graphs that come about by inserting blocks into an empty one.  A block may be a container that
is nested to any depth. -/
inductive Inserted : Graph → Prop where
  | empty (metadata : Metadata) (isa : InstructionSet) (entry : Nat) :
    Inserted (.empty metadata isa entry)
  | insert {graph next : Graph} {block : Block} (h : graph.Inserted)
    (hinsert : graph.insert block = .ok next) : Inserted next

/-- The outermost blocks of such a graph stand under their ids. -/
theorem Inserted.keys {graph : Graph} (h : graph.Inserted) :
    ∀ entry ∈ graph.blocks, entry.1 = entry.2.id := by
  induction h with
  | empty metadata isa entry => exact fun entry hentry => absurd hentry List.not_mem_nil
  | @insert graph next block _ hinsert ih =>
    rw [Graph.insert] at hinsert
    split at hinsert
    · cases hinsert
    · cases hinsert
      rename_i hnone
      intro entry hentry
      have hfree : ∀ other ∈ graph.blocks, other.1 ≠ block.id := Keyed.get?_eq_none_iff.mp hnone
      obtain ⟨front, back, hsplit, hwith⟩ := Keyed.exists_insert hfree block
      rw [hsplit] at ih
      rw [hwith] at hentry
      rcases List.mem_append.mp hentry with hentry | hentry
      · exact ih entry (List.mem_append_left back hentry)
      · rcases List.mem_cons.mp hentry with rfl | hentry
        · rfl
        · exact ih entry (List.mem_append_right front hentry)

/-- Every block of a graph has a smaller id than the next one. -/
theorem id_lt_nextId {graph : Graph} {block : Block} (h : block.Inside graph.blocks) :
    block.id < graph.nextId :=
  Nat.lt_succ_of_le h.id_le

/-- A leaf with the next id can be inserted, and the other blocks stay as they are around it. -/
theorem Inserted.exists_insert {graph : Graph} (h : graph.Inserted) {leaf : BasicBlock}
    (hid : leaf.id = graph.nextId) :
    ∃ front back, graph.blocks = front ++ back ∧
      graph.insert (.basic leaf) =
        .ok { graph with blocks := front ++ (leaf.id, .basic leaf) :: back } := by
  have hfree : ∀ entry ∈ graph.blocks, entry.1 ≠ leaf.id := by
    intro entry hentry
    have hless := id_lt_nextId (.here hentry)
    rw [h.keys entry hentry, hid]
    exact Nat.ne_of_lt hless
  obtain ⟨front, back, hsplit, hinsert⟩ := Keyed.exists_insert hfree (Block.basic leaf)
  have hnone : graph.get? (Block.basic leaf).id = none := Keyed.get?_eq_none_iff.mpr hfree
  refine ⟨front, back, hsplit, ?_⟩
  rw [Graph.insert, hnone]
  exact congrArg (fun blocks => Except.ok { graph with blocks }) hinsert

/-- A leaf that is put between two others is found, and all others are found as before. -/
theorem leaf?_between {graph next : Graph} {front back : List BasicBlock} {leaf : BasicBlock}
    (hleaves : graph.leaves = front ++ back) (hnext : next.leaves = front ++ leaf :: back)
    (hfresh : ∀ other ∈ graph.leaves, other.id ≠ leaf.id) :
    next.leaf? leaf.id = some leaf ∧ ∀ id, id ≠ leaf.id → next.leaf? id = graph.leaf? id := by
  rw [hleaves] at hfresh
  constructor
  · have hfront : front.find? (·.id = leaf.id) = none :=
      List.find?_eq_none.mpr fun other hother => by
        simpa using hfresh other (List.mem_append_left back hother)
    rw [leaf?, hnext, List.find?_append, hfront, List.find?_cons_of_pos (by simp)]
    rfl
  · intro id hid
    rw [leaf?, leaf?, hleaves, hnext, List.find?_append, List.find?_append,
      List.find?_cons_of_neg (by simpa using hid.symm)]

/-- The next id of a graph is the id of no leaf and of no container, however deep they stand, and it
is a word if all ids are less than the greatest word.  A leaf with this id can be inserted; it is then
found under its id, every other id is found as before, and ids of leaves that were distinct stay
distinct.  What is found is what a search down the containers comes to first. -/
theorem Inserted.nextId_fresh {graph : Graph} (h : graph.Inserted)
    (hwords : ∀ block : Block, block.Inside graph.blocks → block.id < 0xffffffff) :
    graph.nextId ≤ 0xffffffff ∧
      (∀ block : Block, block.Inside graph.blocks → block.id ≠ graph.nextId) ∧
      ∀ leaf : BasicBlock, leaf.id = graph.nextId →
        ∃ next, graph.insert (.basic leaf) = .ok next ∧
          next.leaf? leaf.id = some leaf ∧
          (∀ id, id ≠ leaf.id → next.leaf? id = graph.leaf? id) ∧
          (∀ id, graph.leaf? id = Block.findIn? id graph.blocks ∧
            next.leaf? id = Block.findIn? id next.blocks) ∧
          ((graph.leaves.map (·.id)).Nodup → (next.leaves.map (·.id)).Nodup) := by
  refine ⟨?_, fun block hblock => Nat.ne_of_lt (id_lt_nextId hblock), fun leaf hid => ?_⟩
  · refine Nat.succ_le_succ (Block.maxIdOf_le fun block hblock => ?_)
    exact Nat.le_of_lt_succ (hwords block hblock)
  · obtain ⟨front, back, hsplit, hinsert⟩ := h.exists_insert hid
    have hfresh : ∀ other ∈ graph.leaves, other.id ≠ leaf.id := by
      intro other hother
      rw [hid]
      exact Nat.ne_of_lt (id_lt_nextId (Block.inside_of_mem_leavesOf hother))
    have hleaves : graph.leaves = Block.leavesOf front ++ Block.leavesOf back := by
      rw [leaves, hsplit, Block.leavesOf_append]
    have hnext : ({ graph with blocks := front ++ (leaf.id, .basic leaf) :: back } : Graph).leaves =
        Block.leavesOf front ++ leaf :: Block.leavesOf back := by
      rw [leaves, Block.leavesOf_append, Block.leavesOf]
      rfl
    obtain ⟨hself, hothers⟩ := leaf?_between hleaves hnext hfresh
    refine ⟨_, hinsert, hself, hothers, fun id => ?_, fun hnodup => ?_⟩
    · exact ⟨(Block.findIn?_eq id _).symm, (Block.findIn?_eq id _).symm⟩
    · have hperm : (Block.leavesOf front ++ leaf :: Block.leavesOf back).Perm
          (leaf :: graph.leaves) := by
        rw [hleaves]
        exact List.perm_middle
      rw [hnext, (hperm.map (·.id)).nodup_iff, List.map_cons, List.nodup_cons]
      refine ⟨fun hmem => ?_, hnodup⟩
      obtain ⟨other, hother, hsame⟩ := List.mem_map.mp hmem
      exact hfresh other hother hsame

/-- A leaf, and a container in which a child stands under the key 13. -/
def grouped : Graph where
  metadata := default
  isa := .small
  entry := 2
  blocks :=
    [(2, .basic (.empty 2 none)),
     (7, .group 7
      [(5, .group 12 [(1, .basic (.empty 4 none))]), (13, .basic (.empty 9 none))])]

theorem grouped_inserted : grouped.Inserted :=
  have hempty : (Graph.empty default .small 2).Inserted := .empty default .small 2
  have hleaf : ({ grouped with blocks := grouped.blocks.take 1 } : Graph).Inserted :=
    hempty.insert (show Graph.insert _ (.basic (.empty 2 none)) = _ from rfl)
  hleaf.insert (show Graph.insert _ grouped.blocks[1].2 = _ from rfl)

/-- The greatest id is that of the inner container.  A key does not count, so that the next id is
13. -/
theorem grouped_nextId :
    grouped.Inserted ∧
      (∀ block : Block, block.Inside grouped.blocks → block.id < 0xffffffff) ∧
      grouped.nextId = 13 ∧
      ∃ next, grouped.insert (.basic (.empty 13 none)) = .ok next ∧
        next.leaf? 13 = some (.empty 13 none) ∧ next.leaf? 9 = some (.empty 9 none) ∧
        (next.leaves.map (·.id)).Nodup := by
  have hwords : ∀ block : Block, block.Inside grouped.blocks → block.id < 0xffffffff :=
    fun block hblock => Nat.lt_of_le_of_lt hblock.id_le (by decide)
  obtain ⟨-, -, hinsert⟩ := grouped_inserted.nextId_fresh hwords
  obtain ⟨next, hnext, hself, hothers, -, hnodup⟩ := hinsert (.empty 13 none) rfl
  exact ⟨grouped_inserted, hwords, rfl, next, hnext, hself, hothers 9 (by decide),
    hnodup (by decide)⟩

end Graph
end StackCode
