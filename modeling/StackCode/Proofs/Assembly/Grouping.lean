import StackCode.Assembly.Basic
import StackCode.Proofs.Graph.Order

/-!
Grouping.  Containers decide in which order the basic blocks of a graph are come upon, and nothing
else.  What makes a graph orderly, and what it is for blocks to stand in order, are properties of
the blocks whatever their order, so graphs with the same blocks are laid out in the same way and
assembled to the same code.
-/

namespace StackCode
namespace Graph

open Outcome

variable {graph other : Graph}

/-- Graphs with the same blocks, grouped in whatever way. -/
structure Regroups (graph other : Graph) : Prop where
  metadata : other.metadata = graph.metadata
  isa : other.isa = graph.isa
  entry : other.entry = graph.entry
  leaves : other.leaves.Perm graph.leaves

theorem Regroups.symm (h : Regroups graph other) : Regroups other graph where
  metadata := h.metadata.symm
  isa := h.isa.symm
  entry := h.entry.symm
  leaves := h.leaves.symm

/-- Fallthroughs do not depend on where a block is grouped. -/
theorem fallsTo_iff_of_perm {leaves leaves' : List BasicBlock} (h : leaves'.Perm leaves)
    {id next : Nat} : FallsTo leaves' id next ↔ FallsTo leaves id next := by
  simp only [FallsTo, h.mem_iff]

theorem Regroups.orderly (h : Regroups graph other) (horderly : Orderly graph) :
    Orderly other := by
  obtain ⟨hids, hlanding, hunshared, hacyclic, hentry, hfree⟩ := horderly
  have hmem : ∀ block ∈ other.leaves, block ∈ graph.leaves := fun block => h.leaves.mem_iff.mp
  have hids' : (other.leaves.map (·.id)).Perm (graph.leaves.map (·.id)) := h.leaves.map _
  have hfalls : FallsTo other.leaves = FallsTo graph.leaves := by
    funext id next
    exact propext (fallsTo_iff_of_perm h.leaves)
  refine ⟨hids'.nodup_iff.mpr hids, fun block hblock label hlabel => ?_,
    fun block hblock another hanother => hunshared block (hmem block hblock) another
      (hmem another hanother), ?_, ?_, fun block hblock => ?_⟩
  · obtain ⟨hindex, hlands⟩ := hlanding block (hmem block hblock) label hlabel
    exact ⟨hindex, hids'.mem_iff.mpr hlands⟩
  · rw [hfalls]
    exact hacyclic
  · rw [h.entry]
    exact hids'.mem_iff.mpr hentry
  · rw [h.entry]
    exact hfree block (hmem block hblock)

theorem Run.Maximal.of_perm {leaves leaves' : List BasicBlock} (h : leaves'.Perm leaves)
    {run : Run} (hmaximal : run.Maximal leaves) : run.Maximal leaves' := by
  obtain ⟨hlinked, ⟨first, hfirst, hunreached⟩, hclosing⟩ := hmaximal
  exact ⟨hlinked, ⟨first, hfirst, fun block hblock => hunreached block (h.mem_iff.mp hblock)⟩,
    hclosing⟩

theorem Regroups.inOrder (h : Regroups graph other) {blocks : List BasicBlock}
    (horder : InOrder graph blocks) : InOrder other blocks := by
  obtain ⟨hperm, hentry, hadjacent, first, others, hblocks, hruns, hsorted⟩ := horder
  refine ⟨hperm.trans h.leaves.symm, h.entry ▸ hentry, hadjacent, first, others, hblocks, ?_,
    hsorted⟩
  exact fun run hrun => (hruns run hrun).of_perm h.leaves

/-- Grouping keeps the order of the blocks. -/
theorem Regroups.linearize_ok (h : Regroups graph other) {blocks : List BasicBlock}
    (hlinear : graph.linearize = .ok blocks) : other.linearize = .ok blocks := by
  obtain ⟨horderly, horder⟩ := linearize_sound hlinear
  have horderly' := h.orderly horderly
  obtain ⟨blocks', hlinear'⟩ := horderly'.exists_linearize
  have horder' := (linearize_sound hlinear').2
  rw [hlinear', horder'.unique (h.inOrder horder) horderly'.distinct]

/-- Grouping keeps the code. -/
theorem Regroups.assemble_ok (h : Regroups graph other) {settings : AssemblySettings}
    {assembly : Assembly} (hassemble : graph.assemble settings = .ok assembly) :
    other.assemble settings = .ok assembly := by
  simp only [assemble, flatten, bind_eq_ok] at hassemble
  obtain ⟨flat, ⟨blocks, hlinear, hflat⟩, layout, hlayout, hrest⟩ := hassemble
  have hflat' : other.flatten settings.verify = .ok flat := by
    rw [flatten, h.linearize_ok hlinear, h.isa, h.metadata]
    exact hflat
  rw [assemble, h.isa, h.metadata]
  exact bind_eq_ok.mpr ⟨flat, hflat', bind_eq_ok.mpr ⟨layout, hlayout, hrest⟩⟩

/-- Graphs with the same blocks are laid out in the same order, or neither is, and assembled to the
same code, or neither is. -/
theorem assemble_iff_of_regroups (h : Regroups graph other) :
    (∀ blocks, other.linearize = .ok blocks ↔ graph.linearize = .ok blocks) ∧
      ∀ settings assembly,
        other.assemble settings = .ok assembly ↔ graph.assemble settings = .ok assembly :=
  ⟨fun _ => ⟨h.symm.linearize_ok, h.linearize_ok⟩, fun _ _ => ⟨h.symm.assemble_ok, h.assemble_ok⟩⟩

/-- The blocks of `threaded` in other containers, with its entry two levels down. -/
def rethreaded : Graph where
  metadata := default
  isa := .small
  entry := 3
  blocks :=
    [(4, .basic (BasicBlock.empty 4 none)),
     (5, .basic { BasicBlock.empty 5 none with fallthrough := some (.start 4) }),
     (8, .group 8
      [(1, .basic (BasicBlock.empty 7 none)),
       (2, .group 9
        [(1, .basic (BasicBlock.empty 2 none)),
         (6, .basic { BasicBlock.empty 3 none with fallthrough := some (.start 1) })]),
       (3, .basic { BasicBlock.empty 1 none with fallthrough := some (.start 2) })])]

theorem rethreaded_regroups : Regroups threaded rethreaded where
  metadata := rfl
  isa := rfl
  entry := rfl
  leaves := by decide

/-- `rethreaded` is laid out as `threaded` is. -/
theorem rethreaded_linearize :
    Regroups threaded rethreaded ∧ rethreaded.linearize = .ok threadedOrder ∧
      ∀ settings assembly,
        rethreaded.assemble settings = .ok assembly ↔ threaded.assemble settings = .ok assembly := by
  obtain ⟨hlinear, hassemble⟩ := assemble_iff_of_regroups rethreaded_regroups
  exact ⟨rethreaded_regroups, (hlinear threadedOrder).mpr threaded_linearize, hassemble⟩

end Graph
end StackCode
