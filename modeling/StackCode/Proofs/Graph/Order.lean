import Mathlib.Data.List.Chain
import Mathlib.Data.List.Pairwise
import Mathlib.Logic.Relation
import StackCode.InstructionSet.Small
import StackCode.Proofs.Graph.Linear

/-!
Which graphs have a linear order, and which order it is.  Blocks can be put in order exactly if
their ids are distinct and fallthroughs tie them into runs: every fallthrough lands on the start
of a block on which no other lands, none leads back to where it came from, and none leads to the
entry.  The order is then the one that keeps these runs together, the run of the entry first and
the others by the ids of their first blocks.
-/

namespace StackCode
namespace Graph

open Outcome

/-- Block `id` falls through to block `next`. -/
def FallsTo (leaves : List BasicBlock) (id next : Nat) : Prop :=
  ∃ block ∈ leaves, block.id = id ∧ block.next? = some next

/-- The graphs whose blocks can be put in order. -/
structure Orderly (graph : Graph) : Prop where
  distinct : (graph.leaves.map (·.id)).Nodup
  landing : ∀ block ∈ graph.leaves, ∀ label, block.fallthrough = some label →
    label.index = 0 ∧ label.block ∈ graph.leaves.map (·.id)
  unshared : ∀ block ∈ graph.leaves, ∀ other ∈ graph.leaves, ∀ target,
    block.next? = some target → other.next? = some target → block = other
  acyclic : ∀ id, ¬Relation.TransGen (FallsTo graph.leaves) id id
  entry : graph.entry ∈ graph.leaves.map (·.id)
  free : ∀ block ∈ graph.leaves, block.next? ≠ some graph.entry

/-- A run that cannot be made longer at either end. -/
structure Run.Maximal (leaves : List BasicBlock) (run : Run) : Prop where
  linked : run.IsChain fun block next => block.next? = some next.id
  opening : ∃ block, run.head? = some block ∧ ∀ other ∈ leaves, other.next? ≠ some block.id
  closing : ∀ block, run.getLast? = some block → block.next? = none

/-- The order of the blocks of a graph. -/
structure InOrder (graph : Graph) (blocks : List BasicBlock) : Prop where
  perm : blocks.Perm graph.leaves
  entry : blocks.head?.map (·.id) = some graph.entry
  adjacent : ∀ (index : Nat) (block : BasicBlock) (target : Nat), blocks[index]? = some block →
    block.next? = some target → blocks[index + 1]?.map (·.id) = some target
  runs : ∃ (first : Run) (others : List Run), blocks = first ++ others.flatten ∧
    (∀ run ∈ first :: others, run.Maximal graph.leaves) ∧ others.Pairwise (·.key < ·.key)

/-! ### Fallthroughs -/

theorem mem_next {leaves : List BasicBlock} {target : Nat} :
    target ∈ leaves.filterMap BasicBlock.next? ↔ ∃ block ∈ leaves, block.next? = some target :=
  List.mem_filterMap

theorem nodup_next_iff {leaves : List BasicBlock} (hids : (leaves.map (·.id)).Nodup) :
    (leaves.filterMap BasicBlock.next?).Nodup ↔
      ∀ block ∈ leaves, ∀ other ∈ leaves, ∀ target, block.next? = some target →
        other.next? = some target → block = other := by
  rw [List.Nodup, List.pairwise_filterMap]
  constructor
  · intro h block hblock other hother target hnext hnext'
    by_contra hne
    have hsymm : Std.Symm fun a b : BasicBlock => ∀ target, a.next? = some target →
        ∀ target', b.next? = some target' → target ≠ target' :=
      ⟨fun a b hab target hb target' ha => Ne.symm (hab target' ha target hb)⟩
    exact h.forall hblock hother hne target hnext target hnext' rfl
  · intro h
    refine hids.of_map.pairwise_of_forall_ne fun block hblock other hother hne => ?_
    intro target hnext target' hnext' hsame
    exact hne (h block hblock other hother target hnext (hsame ▸ hnext'))

/-- Fallthroughs that raise a rank do not lead back. -/
theorem acyclic_of_rank {leaves : List BasicBlock} (rank : Nat → Nat)
    (h : ∀ id next, FallsTo leaves id next → rank id < rank next) (id : Nat) :
    ¬Relation.TransGen (FallsTo leaves) id id := by
  have hrank : ∀ {id next}, Relation.TransGen (FallsTo leaves) id next → rank id < rank next := by
    intro id next hpath
    induction hpath with
    | single hfalls => exact h _ _ hfalls
    | tail _ hfalls ih => exact Nat.lt_trans ih (h _ _ hfalls)
  exact fun hpath => Nat.lt_irrefl _ (hrank hpath)

/-! ### Ends of runs -/

namespace Run

theorem startsAt_append {head : Run} (hhead : head ≠ []) (tail : Run) (id : Nat) :
    Run.startsAt id (head ++ tail) = head.startsAt id := by
  rw [startsAt, startsAt, List.head?_append_of_ne_nil _ hhead]

theorem fallsInto_append_of_ne_nil (head : Run) {tail : Run} (htail : tail ≠ []) (target : Nat) :
    Run.fallsInto target (head ++ tail) = tail.fallsInto target := by
  rw [fallsInto, fallsInto, List.getLast?_append_of_ne_nil _ htail]

theorem eq_of_startsAt {run : Run} {id id' : Nat} (h : run.startsAt id = true)
    (h' : run.startsAt id' = true) : id = id' := by
  obtain ⟨block, rest, rfl, rfl⟩ := startsAt_iff.mp h
  obtain ⟨block', rest', heq, rfl⟩ := startsAt_iff.mp h'
  rw [(List.cons.inj heq).1]

theorem eq_of_fallsInto {run : Run} {target target' : Nat} (h : run.fallsInto target = true)
    (h' : run.fallsInto target' = true) : target = target' := by
  obtain ⟨front, block, rfl, hnext⟩ := fallsInto_iff.mp h
  obtain ⟨front', block', heq, hnext'⟩ := fallsInto_iff.mp h'
  have hsame : block = block' := by simpa using (List.append_inj' heq rfl).2
  rw [hsame, hnext'] at hnext
  exact (Option.some.inj hnext).symm

theorem startsAt_iff_head? {run : Run} {id : Nat} :
    run.startsAt id = true ↔ ∃ block, run.head? = some block ∧ block.id = id := by
  cases run <;> simp [startsAt]

theorem fallsInto_iff_getLast? {run : Run} {target : Nat} :
    run.fallsInto target = true ↔
      ∃ block, run.getLast? = some block ∧ block.next? = some target := by
  rw [fallsInto, Option.any_eq_true]
  simp only [BasicBlock.any_fallthrough, decide_eq_true_eq]

/-- A run leads from its first block to where its last one falls. -/
theorem transGen {leaves : List BasicBlock} {target : Nat} {run : Run}
    (hlinked : run.IsChain fun block next => block.next? = some next.id)
    (hmem : ∀ block ∈ run, block ∈ leaves) (hinto : run.fallsInto target = true) :
    ∀ {id}, run.startsAt id = true → Relation.TransGen (FallsTo leaves) id target := by
  induction run with
  | nil => cases hinto
  | cons block rest ih =>
    intro id hstart
    obtain ⟨first, others, heq, rfl⟩ := startsAt_iff.mp hstart
    obtain ⟨rfl, rfl⟩ := List.cons.inj heq
    have hblock : block ∈ leaves := hmem block List.mem_cons_self
    cases rest with
    | nil =>
      obtain ⟨last, hlast, hnext⟩ := fallsInto_iff_getLast?.mp hinto
      cases hlast
      exact .single ⟨block, hblock, rfl, hnext⟩
    | cons next rest =>
      obtain ⟨hnext, hlinked⟩ := List.isChain_cons_cons.mp hlinked
      have hrest : Run.fallsInto target (next :: rest) = true := by
        rw [← hinto]
        exact (fallsInto_append_of_ne_nil [block] (List.cons_ne_nil _ _) target).symm
      exact .head ⟨block, hblock, rfl, hnext⟩
        (ih hlinked (fun other hother => hmem other (List.mem_cons_of_mem _ hother)) hrest
          (startsAt_iff.mpr ⟨next, rest, rfl, rfl⟩))

end Run

/-! ### Splicing -/

/-- Where splicing stands: the runs of `leaves` once all fallthroughs are joined but those that
land on `pending`.  Exactly these are open at the end of a run, and a block is open at the start
of one unless something was joined to it. -/
structure Spliced (leaves : List BasicBlock) (pending : List Nat) (runs : List Run) : Prop where
  perm : runs.flatten.Perm leaves
  linked : ∀ run ∈ runs, run.IsChain fun block next => block.next? = some next.id
  nonempty : [] ∉ runs
  falls : ∀ target, (∃ run ∈ runs, run.fallsInto target = true) ↔ target ∈ pending
  starts : ∀ id, (∃ run ∈ runs, run.startsAt id = true) ↔
    id ∈ leaves.map (·.id) ∧ (id ∈ leaves.filterMap BasicBlock.next? → id ∈ pending)

theorem spliced_singles {leaves : List BasicBlock} {pending : List Nat}
    (hpending : pending.Perm (leaves.filterMap BasicBlock.next?)) :
    Spliced leaves pending (leaves.map fun block => [block]) := by
  refine ⟨by rw [flatten_singles], ?_, by simp, fun target => ?_, fun id => ?_⟩
  · intro run hrun
    obtain ⟨block, -, rfl⟩ := List.mem_map.mp hrun
    exact .singleton _
  · rw [hpending.mem_iff, mem_next]
    constructor
    · rintro ⟨run, hrun, hinto⟩
      obtain ⟨block, hblock, rfl⟩ := List.mem_map.mp hrun
      obtain ⟨last, hlast, hnext⟩ := Run.fallsInto_iff_getLast?.mp hinto
      cases hlast
      exact ⟨block, hblock, hnext⟩
    · rintro ⟨block, hblock, hnext⟩
      exact ⟨[block], List.mem_map.mpr ⟨block, hblock, rfl⟩,
        Run.fallsInto_iff_getLast?.mpr ⟨block, rfl, hnext⟩⟩
  · rw [List.mem_map]
    constructor
    · rintro ⟨run, hrun, hstart⟩
      obtain ⟨block, hblock, rfl⟩ := List.mem_map.mp hrun
      obtain ⟨first, hfirst, hid⟩ := Run.startsAt_iff_head?.mp hstart
      cases hfirst
      exact ⟨⟨block, hblock, hid⟩, hpending.mem_iff.mpr⟩
    · rintro ⟨⟨block, hblock, hid⟩, -⟩
      exact ⟨[block], List.mem_map.mpr ⟨block, hblock, rfl⟩,
        Run.startsAt_iff_head?.mpr ⟨block, rfl, hid⟩⟩

section Join

variable {runs joined others : List Run} {head tail : Run} {target : Nat}
  (hruns : runs.Perm (head :: tail :: others)) (hjoined : joined.Perm ((head ++ tail) :: others))
include hruns hjoined

/-- A join closes the end that falls into its target, and no other. -/
theorem falls_of_join (hnext : (runs.flatten.filterMap BasicBlock.next?).Nodup)
    (htail : tail ≠ []) (hhead : head.fallsInto target = true) (other : Nat) :
    (∃ run ∈ joined, run.fallsInto other = true) ↔
      other ≠ target ∧ ∃ run ∈ runs, run.fallsInto other = true := by
  have honly : ∀ run ∈ tail :: others, run.fallsInto target = false :=
    @not_fallsInto [] (tail :: others) head target
      ((hruns.flatten.filterMap _).nodup_iff.mp hnext) hhead
  simp only [hruns.mem_iff, hjoined.mem_iff, List.mem_cons, exists_eq_or_imp]
  rw [Run.fallsInto_append_of_ne_nil head htail]
  by_cases hother : other = target
  · subst hother
    refine iff_of_false ?_ fun h => h.1 rfl
    rintro (h | ⟨run, hrun, h⟩)
    · rw [honly tail List.mem_cons_self] at h
      cases h
    · rw [honly run (List.mem_cons_of_mem _ hrun)] at h
      cases h
  · have hhead' : ¬head.fallsInto other = true := fun h => hother (Run.eq_of_fallsInto h hhead)
    simp [hhead', hother]

/-- A join closes the start of its target, and no other. -/
theorem starts_of_join (hids : (runs.flatten.map (·.id)).Nodup) (hhead : head ≠ [])
    (htail : tail.startsAt target = true) (id : Nat) :
    (∃ run ∈ joined, run.startsAt id = true) ↔
      id ≠ target ∧ ∃ run ∈ runs, run.startsAt id = true := by
  have honly : ∀ run ∈ head :: others, run.startsAt target = false :=
    @not_startsAt [head] others tail target ((hruns.flatten.map _).nodup_iff.mp hids) htail
  simp only [hruns.mem_iff, hjoined.mem_iff, List.mem_cons, exists_eq_or_imp]
  rw [Run.startsAt_append hhead]
  by_cases hid : id = target
  · subst hid
    refine iff_of_false ?_ fun h => h.1 rfl
    rintro (h | ⟨run, hrun, h⟩)
    · rw [honly head List.mem_cons_self] at h
      cases h
    · rw [honly run (List.mem_cons_of_mem _ hrun)] at h
      cases h
  · have htail' : ¬tail.startsAt id = true := fun h => hid (Run.eq_of_startsAt h htail)
    simp [htail', hid]

end Join

/-- A join closes one open end and one open start, and leaves the others open. -/
theorem Spliced.joinAt {leaves : List BasicBlock} {target : Nat} {pending : List Nat}
    {runs joined : List Run} (h : Spliced leaves (target :: pending) runs)
    (hids : (leaves.map (·.id)).Nodup) (hnext : (leaves.filterMap BasicBlock.next?).Nodup)
    (htarget : target ∈ leaves.filterMap BasicBlock.next?) (hfresh : target ∉ pending)
    (hjoin : joinAt target runs = .ok joined) : Spliced leaves pending joined := by
  obtain ⟨hperm, hlinked, hsome, hfalls, hstarts⟩ := h
  have hids' := (hperm.map (·.id)).nodup_iff.mpr hids
  have hnext' := (hperm.filterMap BasicBlock.next?).nodup_iff.mpr hnext
  obtain ⟨head, tail, others, hhead, htail, hruns, hjoined⟩ :=
    joinAt_eq_ok hids' hnext' ((hfalls target).mpr List.mem_cons_self) hjoin
  have hmem : ∀ run ∈ head :: tail :: others, run ∈ runs := fun run => hruns.mem_iff.mpr
  have hold : ∀ run ∈ runs, run ≠ [] := fun run hrun hnil => hsome (hnil ▸ hrun)
  have hheadSome : head ≠ [] := hold head (hmem head (by simp))
  have htailSome : tail ≠ [] := hold tail (hmem tail (by simp))
  refine ⟨?_, ?_, ?_, fun other => ?_, fun id => ?_⟩
  · have hflat : ((head ++ tail) :: others).flatten = (head :: tail :: others).flatten := by simp
    exact (hjoined.flatten.trans (hflat ▸ hruns.flatten.symm)).trans hperm
  · intro run hrun
    rcases List.mem_cons.mp (hjoined.mem_iff.mp hrun) with rfl | hrun
    · refine (hlinked head (hmem head (by simp))).append (hlinked tail (hmem tail (by simp))) ?_
      intro block hblock next hfirst
      obtain ⟨last, hlast, hlands⟩ := Run.fallsInto_iff_getLast?.mp hhead
      obtain ⟨first, hfirst', rfl⟩ := Run.startsAt_iff_head?.mp htail
      rw [Option.mem_def, hlast, Option.some.injEq] at hblock
      rw [Option.mem_def, hfirst', Option.some.injEq] at hfirst
      rw [← hblock, ← hfirst, hlands]
    · exact hlinked run (hmem run (by simp [hrun]))
  · intro hnil
    rcases List.mem_cons.mp (hjoined.mem_iff.mp hnil) with hnil | hnil
    · exact hheadSome (List.append_eq_nil_iff.mp hnil.symm).1
    · exact hsome (hmem [] (by simp [hnil]))
  · rw [falls_of_join hruns hjoined hnext' htailSome hhead, hfalls, List.mem_cons]
    constructor
    · rintro ⟨hne, rfl | hother⟩
      · exact absurd rfl hne
      · exact hother
    · exact fun hother => ⟨fun hsame => hfresh (hsame ▸ hother), .inr hother⟩
  · rw [starts_of_join hruns hjoined hids' hheadSome htail, hstarts]
    constructor
    · rintro ⟨hne, hid, hpending⟩
      exact ⟨hid, fun hnext => (List.mem_cons.mp (hpending hnext)).resolve_left hne⟩
    · rintro ⟨hid, hpending⟩
      exact ⟨fun hsame => hfresh (hsame ▸ hpending (hsame ▸ htarget)), hid,
        fun hnext => List.mem_cons_of_mem _ (hpending hnext)⟩

/-- A pending join only fails on a target that is missing or on a cycle. -/
theorem Spliced.exists_joinAt {leaves : List BasicBlock} {target : Nat} {pending : List Nat}
    {runs : List Run} (h : Spliced leaves (target :: pending) runs)
    (htarget : target ∈ leaves.map (·.id))
    (hacyclic : ¬Relation.TransGen (FallsTo leaves) target target) :
    ∃ joined, Graph.joinAt target runs = .ok joined := by
  obtain ⟨run, hrun, hstart⟩ := (h.starts target).mpr ⟨htarget, fun _ => List.mem_cons_self⟩
  obtain ⟨tail, hfind⟩ := Option.isSome_iff_exists.mp
    (List.find?_isSome.mpr ⟨run, hrun, hstart⟩)
  have htail : tail ∈ runs := List.mem_of_find?_eq_some hfind
  have hinto : ¬tail.fallsInto target = true := by
    intro hinto
    have hmem : ∀ block ∈ tail, block ∈ leaves := fun block hblock =>
      h.perm.mem_iff.mp (List.mem_flatten.mpr ⟨tail, htail, hblock⟩)
    exact hacyclic (Run.transGen (h.linked tail htail) hmem hinto (List.find?_some hfind))
  rw [Graph.joinAt, hfind]
  simp only
  rw [if_neg hinto]
  exact ⟨_, rfl⟩

section Splicing

variable {leaves : List BasicBlock} (hids : (leaves.map (·.id)).Nodup)
  (hnext : (leaves.filterMap BasicBlock.next?).Nodup)
include hids hnext

/-- Where all joins succeed, nothing is pending at the end. -/
theorem Spliced.foldlM {pending : List Nat} :
    ∀ {runs joined : List Run}, Spliced leaves pending runs → pending.Nodup →
      pending ⊆ leaves.filterMap BasicBlock.next? →
      pending.foldlM (fun runs target => Graph.joinAt target runs) runs = .ok joined →
      Spliced leaves [] joined := by
  induction pending with
  | nil =>
    intro runs joined hruns _ _ h
    cases h
    exact hruns
  | cons target pending ih =>
    intro runs joined hruns hnodup hsub h
    obtain ⟨htarget, hsub⟩ := List.cons_subset.mp hsub
    obtain ⟨hfresh, hnodup⟩ := List.nodup_cons.mp hnodup
    rw [List.foldlM_cons] at h
    obtain ⟨next, hjoin, h⟩ := bind_eq_ok.mp h
    exact ih (hruns.joinAt hids hnext htarget hfresh hjoin) hnodup hsub h

/-- All joins succeed where every target exists and no fallthrough leads back. -/
theorem Spliced.exists_foldlM (hacyclic : ∀ id, ¬Relation.TransGen (FallsTo leaves) id id)
    (hlands : leaves.filterMap BasicBlock.next? ⊆ leaves.map (·.id)) {pending : List Nat} :
    ∀ {runs : List Run}, Spliced leaves pending runs → pending.Nodup →
      pending ⊆ leaves.filterMap BasicBlock.next? →
      ∃ joined, pending.foldlM (fun runs target => Graph.joinAt target runs) runs = .ok joined := by
  induction pending with
  | nil => exact fun _ _ _ => ⟨_, rfl⟩
  | cons target pending ih =>
    intro runs hruns hnodup hsub
    obtain ⟨htarget, hsub⟩ := List.cons_subset.mp hsub
    obtain ⟨hfresh, hnodup⟩ := List.nodup_cons.mp hnodup
    obtain ⟨next, hjoin⟩ := hruns.exists_joinAt (hlands htarget) (hacyclic target)
    obtain ⟨joined, h⟩ := ih (hruns.joinAt hids hnext htarget hfresh hjoin) hnodup hsub
    exact ⟨joined, by rw [List.foldlM_cons]; exact bind_eq_ok.mpr ⟨next, hjoin, h⟩⟩

end Splicing

/-! ### Runs in a row -/

namespace Run.Maximal

variable {leaves : List BasicBlock}

/-- In a row of maximal runs, the block that a block falls through to is the next one. -/
theorem adjacent_flatten {runs : List Run} (hruns : ∀ run ∈ runs, run.Maximal leaves) :
    ∀ (index : Nat) (block : BasicBlock) (target : Nat), runs.flatten[index]? = some block →
      block.next? = some target → runs.flatten[index + 1]?.map (·.id) = some target := by
  induction runs with
  | nil =>
    intro index block target hblock
    rw [List.flatten_nil, List.getElem?_nil] at hblock
    cases hblock
  | cons run rest ih =>
    obtain ⟨hrun, hrest⟩ := List.forall_mem_cons.mp hruns
    intro index block target hblock hnext
    rw [List.flatten_cons] at hblock ⊢
    by_cases hinside : index < run.length
    · rw [List.getElem?_append_left hinside] at hblock
      by_cases hmore : index + 1 < run.length
      · have hlink := List.isChain_iff_getElem.mp hrun.linked index hmore
        rw [List.getElem?_eq_getElem hinside, Option.some.injEq] at hblock
        rw [hblock, hnext, Option.some.injEq] at hlink
        rw [List.getElem?_append_left hmore, List.getElem?_eq_getElem hmore, Option.map_some,
          hlink]
      · have hlast : run.getLast? = some block := by
          rw [List.getLast?_eq_getElem?, ← hblock]
          congr 1
          omega
        rw [hrun.closing block hlast] at hnext
        cases hnext
    · rw [List.getElem?_append_right (by omega)] at hblock
      rw [List.getElem?_append_right (by omega), Nat.sub_add_comm (by omega)]
      exact ih hrest _ block target hblock hnext

/-- A block of a linked run is its first or has another one fall through to it. -/
theorem head_or_next {run : Run}
    (hlinked : run.IsChain fun block next => block.next? = some next.id)
    {block : BasicBlock} (hblock : block ∈ run) :
    run.head? = some block ∨ ∃ other ∈ run, other.next? = some block.id := by
  induction run with
  | nil => cases hblock
  | cons first rest ih =>
    rcases List.mem_cons.mp hblock with rfl | hblock
    · exact .inl rfl
    · cases rest with
      | nil => cases hblock
      | cons second rest =>
        obtain ⟨hnext, hlinked⟩ := List.isChain_cons_cons.mp hlinked
        rcases ih hlinked hblock with hsecond | ⟨other, hother, hnext'⟩
        · cases hsecond
          exact .inr ⟨first, List.mem_cons_self, hnext⟩
        · exact .inr ⟨other, List.mem_cons_of_mem _ hother, hnext'⟩

/-- What follows a block in a run is determined by where fallthroughs lead. -/
theorem eq_of_linked (hids : (leaves.map (·.id)).Nodup) {rest : Run} :
    ∀ {block : BasicBlock} {rest' : Run},
      (block :: rest).IsChain (fun block next => block.next? = some next.id) →
      (block :: rest').IsChain (fun block next => block.next? = some next.id) →
      (∀ last, (block :: rest).getLast? = some last → last.next? = none) →
      (∀ last, (block :: rest').getLast? = some last → last.next? = none) →
      rest ⊆ leaves → rest' ⊆ leaves → rest = rest' := by
  induction rest with
  | nil =>
    intro block rest' _ hlinked' hclosing _ _ _
    cases rest' with
    | nil => rfl
    | cons next' rest' =>
      have hnext' := (List.isChain_cons_cons.mp hlinked').1
      rw [hclosing block rfl] at hnext'
      cases hnext'
  | cons next rest ih =>
    intro block rest' hlinked hlinked' hclosing hclosing' hmem hmem'
    obtain ⟨hnext, hlinked⟩ := List.isChain_cons_cons.mp hlinked
    cases rest' with
    | nil =>
      rw [hclosing' block rfl] at hnext
      cases hnext
    | cons next' rest' =>
      obtain ⟨hnext', hlinked'⟩ := List.isChain_cons_cons.mp hlinked'
      obtain ⟨hleaf, hrest⟩ := List.cons_subset.mp hmem
      obtain ⟨hleaf', hrest'⟩ := List.cons_subset.mp hmem'
      rw [hnext, Option.some.injEq] at hnext'
      have hsame : next = next' := List.inj_on_of_nodup_map hids hleaf hleaf' hnext'
      subst hsame
      rw [List.getLast?_cons_cons] at hclosing hclosing'
      rw [ih hlinked hlinked' hclosing hclosing' hrest hrest']

/-- The first block of a maximal run determines the run. -/
theorem eq_of_head? (hids : (leaves.map (·.id)).Nodup) {run other : Run}
    (h : run.Maximal leaves) (hother : other.Maximal leaves) (hmem : run ⊆ leaves)
    (hmem' : other ⊆ leaves) {block : BasicBlock} (hhead : run.head? = some block)
    (hhead' : other.head? = some block) : run = other := by
  obtain ⟨rest, rfl⟩ := List.head?_eq_some_iff.mp hhead
  obtain ⟨rest', rfl⟩ := List.head?_eq_some_iff.mp hhead'
  rw [eq_of_linked hids h.linked hother.linked h.closing hother.closing
    (List.cons_subset.mp hmem).2 (List.cons_subset.mp hmem').2]

/-- A maximal run is one of any maximal runs that hold its first block. -/
theorem mem_of_head? (hids : (leaves.map (·.id)).Nodup) {run : Run} {runs : List Run}
    (h : run.Maximal leaves) (hruns : ∀ other ∈ runs, other.Maximal leaves)
    (hmem : run ⊆ leaves) (hmem' : runs.flatten ⊆ leaves) {block : BasicBlock}
    (hhead : run.head? = some block) (hblock : block ∈ runs.flatten) : run ∈ runs := by
  obtain ⟨other, hother, hblock⟩ := List.mem_flatten.mp hblock
  have hsub : other ⊆ leaves := fun member hmember =>
    hmem' (List.mem_flatten.mpr ⟨other, hother, hmember⟩)
  rcases head_or_next (hruns other hother).linked hblock with hhead' | ⟨member, hmember, hnext⟩
  · rwa [h.eq_of_head? hids (hruns other hother) hmem hsub hhead hhead']
  · obtain ⟨first, hfirst, hfree⟩ := h.opening
    rw [hhead, Option.some.injEq] at hfirst
    exact absurd (hfirst ▸ hnext) (hfree member (hsub hmember))

end Run.Maximal

/-! ### The order -/

/-- Sorted runs have ascending keys, as no two of them start with the same block. -/
theorem pairwise_mergeSort_key {runs : List Run} (hids : (runs.flatten.map (·.id)).Nodup)
    (hsome : [] ∉ runs) :
    (runs.mergeSort fun a b => a.key ≤ b.key).Pairwise (·.key < ·.key) := by
  have hperm : (runs.mergeSort fun a b => a.key ≤ b.key).Perm runs := List.mergeSort_perm _ _
  have hle := pairwise_mergeSort Run.key runs
  have hne := pairwise_key ((hperm.flatten.map _).nodup_iff.mpr hids)
    (fun hnil => hsome (hperm.mem_iff.mp hnil))
  exact (hle.and hne).imp fun h => Nat.lt_of_le_of_ne h.1 h.2

/-- Once nothing is pending, all runs are maximal. -/
theorem Spliced.maximal {leaves : List BasicBlock} {runs : List Run} (h : Spliced leaves [] runs) :
    ∀ run ∈ runs, run.Maximal leaves := by
  intro run hrun
  refine ⟨h.linked run hrun, ?_, fun block hlast => ?_⟩
  · obtain ⟨block, rest, rfl⟩ := List.exists_cons_of_ne_nil
      (fun hnil : run = [] => h.nonempty (hnil ▸ hrun))
    refine ⟨block, rfl, fun other hother hnext => ?_⟩
    have hstart := (h.starts block.id).mp ⟨_, hrun, Run.startsAt_iff_head?.mpr ⟨block, rfl, rfl⟩⟩
    exact List.not_mem_nil (hstart.2 (mem_next.mpr ⟨other, hother, hnext⟩))
  · cases hnext : block.next? with
    | none => rfl
    | some target =>
      have hinto := Run.fallsInto_iff_getLast?.mpr ⟨block, hlast, hnext⟩
      exact absurd ((h.falls target).mp ⟨run, hrun, hinto⟩) List.not_mem_nil

/-- What is laid out stands in order. -/
theorem Spliced.inOrder {graph : Graph} {runs : List Run} {first : Run}
    (h : Spliced graph.leaves [] runs) (hids : (graph.leaves.map (·.id)).Nodup)
    (hfirst : runs.find? (Run.startsAt graph.entry) = some first) :
    InOrder graph (first ++ ((runs.filter fun run => !run.startsAt graph.entry).mergeSort
      fun a b => a.key ≤ b.key).flatten) := by
  have hruns := (h.perm.map (·.id)).nodup_iff.mpr hids
  obtain ⟨hstart, before, after, rfl, -⟩ := List.find?_eq_some_iff_append.mp hfirst
  rw [filter_startsAt hruns hstart]
  have hsplit : (before ++ first :: after).Perm (first :: (before ++ after)) := List.perm_middle
  have hsort := List.mergeSort_perm (before ++ after) fun a b => decide (a.key ≤ b.key)
  have hall : (first :: (before ++ after).mergeSort fun a b => a.key ≤ b.key).Perm
      (before ++ first :: after) := (hsort.cons first).trans hsplit.symm
  have hmaximal : ∀ run ∈ first :: (before ++ after).mergeSort fun a b => a.key ≤ b.key,
      run.Maximal graph.leaves := fun run hrun => h.maximal run (hall.mem_iff.mp hrun)
  have hothers : ((before ++ after).flatten.map (·.id)).Nodup := by
    have := (hsplit.flatten.map (·.id)).nodup_iff.mp hruns
    rw [List.flatten_cons, List.map_append] at this
    exact this.of_append_right
  have hsome : [] ∉ before ++ after := fun hnil =>
    h.nonempty (hsplit.mem_iff.mpr (List.mem_cons_of_mem _ hnil))
  rw [← List.flatten_cons]
  refine ⟨hall.flatten.trans h.perm, ?_, Run.Maximal.adjacent_flatten hmaximal, first, _,
    List.flatten_cons, hmaximal, pairwise_mergeSort_key hothers hsome⟩
  obtain ⟨block, rest, rfl, hid⟩ := Run.startsAt_iff.mp hstart
  rw [← hid]
  rfl

section Unique

variable {leaves : List BasicBlock} {first : Run} {others others' : List Run}

theorem subset_of_maximal (hids : (leaves.map (·.id)).Nodup)
    (hperm : (first :: others).flatten.Perm leaves)
    (hperm' : (first :: others').flatten.Perm leaves)
    (hruns : ∀ run ∈ first :: others, run.Maximal leaves)
    (hruns' : ∀ run ∈ first :: others', run.Maximal leaves) : others ⊆ others' := by
  intro run hrun
  have hmaximal : run.Maximal leaves := hruns run (List.mem_cons_of_mem _ hrun)
  obtain ⟨block, hhead, -⟩ := hmaximal.opening
  have hblock : block ∈ run := List.mem_of_head? hhead
  have hmem : run ⊆ leaves := fun member hmember =>
    hperm.mem_iff.mp (List.mem_flatten.mpr ⟨run, List.mem_cons_of_mem _ hrun, hmember⟩)
  have hin := hmaximal.mem_of_head? hids hruns' hmem (fun member => hperm'.mem_iff.mp) hhead
    (hperm'.mem_iff.mpr (hmem hblock))
  rcases List.mem_cons.mp hin with rfl | hin
  · -- The first run is not among the others, as its blocks are laid out once.
    have hnodup := (hperm.map (·.id)).nodup_iff.mpr hids
    rw [List.flatten_cons, List.map_append, List.nodup_append] at hnodup
    refine absurd rfl (hnodup.2.2 block.id (List.mem_map_of_mem hblock) block.id ?_)
    exact List.mem_map_of_mem (List.mem_flatten.mpr ⟨run, hrun, hblock⟩)
  · exact hin

end Unique

/-- No two orders of one graph differ. -/
theorem InOrder.unique {graph : Graph} {blocks blocks' : List BasicBlock}
    (h : InOrder graph blocks) (h' : InOrder graph blocks')
    (hids : (graph.leaves.map (·.id)).Nodup) : blocks = blocks' := by
  obtain ⟨hperm, hentry, -, first, others, rfl, hruns, hsorted⟩ := h
  obtain ⟨hperm', hentry', -, first', others', rfl, hruns', hsorted'⟩ := h'
  rw [← List.flatten_cons] at hperm hperm'
  have hmem : first ⊆ graph.leaves := fun block hblock =>
    hperm.mem_iff.mp (List.mem_append_left _ hblock)
  have hmem' : first' ⊆ graph.leaves := fun block hblock =>
    hperm'.mem_iff.mp (List.mem_append_left _ hblock)
  obtain ⟨block, hhead, -⟩ := (hruns first List.mem_cons_self).opening
  obtain ⟨block', hhead', -⟩ := (hruns' first' List.mem_cons_self).opening
  rw [List.head?_append, hhead, Option.some_or, Option.map_some, Option.some.injEq] at hentry
  rw [List.head?_append, hhead', Option.some_or, Option.map_some, Option.some.injEq] at hentry'
  have hblock : block = block' := List.inj_on_of_nodup_map hids
    (hmem (List.mem_of_head? hhead)) (hmem' (List.mem_of_head? hhead')) (hentry.trans hentry'.symm)
  have hfirst : first = first' := (hruns first List.mem_cons_self).eq_of_head? hids
    (hruns' first' List.mem_cons_self) hmem hmem' hhead (hblock ▸ hhead')
  subst hfirst
  rw [eq_of_ascending hsorted hsorted' (subset_of_maximal hids hperm hperm' hruns hruns')
    (subset_of_maximal hids hperm' hperm hruns' hruns)]

/-- Blocks that stand in order leave no fallthrough to lead back. -/
theorem InOrder.acyclic {graph : Graph} {blocks : List BasicBlock} (h : InOrder graph blocks)
    (hids : (graph.leaves.map (·.id)).Nodup) (id : Nat) :
    ¬Relation.TransGen (FallsTo graph.leaves) id id := by
  refine acyclic_of_rank (blocks.map (·.id)).idxOf (fun id next hfalls => ?_) id
  obtain ⟨block, hblock, rfl, hnext⟩ := hfalls
  obtain ⟨index, hindex⟩ := List.getElem?_of_mem (h.perm.mem_iff.mpr hblock)
  have hafter := h.adjacent index block next hindex hnext
  have hnodup := (h.perm.map (·.id)).nodup_iff.mpr hids
  have hrank : ∀ place other : Nat, (blocks.map (·.id))[place]? = some other →
      (blocks.map (·.id)).idxOf other = place := by
    intro place other hat
    obtain ⟨hlt, rfl⟩ := List.getElem?_eq_some_iff.mp hat
    exact hnodup.idxOf_getElem place hlt
  rw [hrank index block.id (by rw [List.getElem?_map, hindex]; rfl),
    hrank (index + 1) next (by rw [List.getElem?_map, hafter])]
  exact Nat.lt_succ_self index

theorem linearize_sound {graph : Graph} {blocks : List BasicBlock}
    (h : graph.linearize = .ok blocks) : Orderly graph ∧ InOrder graph blocks := by
  obtain ⟨targets, runs, first, htargets, hruns, hfirst, rfl⟩ := linearize_eq_ok.mp h
  obtain ⟨hids, hnext, hindex, rfl⟩ := fallthroughTargets_nil_eq_ok.mp htargets
  have hpending := perm_pending graph.leaves
  have hspliced : Spliced graph.leaves [] runs := (spliced_singles hpending).foldlM hids hnext
    (hpending.nodup_iff.mpr hnext) hpending.subset hruns
  have horder := hspliced.inOrder hids hfirst
  obtain ⟨hentry, hfree⟩ := (hspliced.starts graph.entry).mp
    ⟨first, List.mem_of_find?_eq_some hfirst, List.find?_some hfirst⟩
  refine ⟨⟨hids, fun block hblock label hlabel => ⟨hindex block hblock label hlabel, ?_⟩,
    (nodup_next_iff hids).mp hnext, horder.acyclic hids, hentry, fun block hblock hlands => ?_⟩,
    horder⟩
  · obtain ⟨index, hat⟩ := List.getElem?_of_mem (horder.perm.mem_iff.mpr hblock)
    have hafter := horder.adjacent index block label.block hat
      (by rw [BasicBlock.next?, hlabel]; rfl)
    obtain ⟨next, hnext, hid⟩ := Option.map_eq_some_iff.mp hafter
    exact List.mem_map.mpr ⟨next, horder.perm.mem_iff.mp (List.mem_of_getElem? hnext), hid⟩
  · exact List.not_mem_nil (hfree (mem_next.mpr ⟨block, hblock, hlands⟩))

theorem Orderly.exists_linearize {graph : Graph} (h : Orderly graph) :
    ∃ blocks, graph.linearize = .ok blocks := by
  obtain ⟨hids, hlanding, hunshared, hacyclic, hentry, hfree⟩ := h
  have hnext := (nodup_next_iff hids).mpr hunshared
  have hpending := perm_pending graph.leaves
  have hlands : graph.leaves.filterMap BasicBlock.next? ⊆ graph.leaves.map (·.id) := by
    intro target htarget
    obtain ⟨block, hblock, hnext⟩ := mem_next.mp htarget
    obtain ⟨label, hlabel, rfl⟩ := Option.map_eq_some_iff.mp hnext
    exact (hlanding block hblock label hlabel).2
  have htargets : fallthroughTargets [] graph.leaves =
      .ok (graph.leaves.reverse.filterMap BasicBlock.next?) :=
    fallthroughTargets_nil_eq_ok.mpr
      ⟨hids, hnext, fun block hblock label hlabel => (hlanding block hblock label hlabel).1, rfl⟩
  have hstart := spliced_singles hpending
  obtain ⟨runs, hruns⟩ := hstart.exists_foldlM hids hnext hacyclic hlands
    (hpending.nodup_iff.mpr hnext) hpending.subset
  have hspliced := hstart.foldlM hids hnext (hpending.nodup_iff.mpr hnext) hpending.subset hruns
  have hfirst : (runs.find? (Run.startsAt graph.entry)).isSome := by
    refine List.find?_isSome.mpr ((hspliced.starts graph.entry).mpr ⟨hentry, fun htarget => ?_⟩)
    obtain ⟨block, hblock, hlands⟩ := mem_next.mp htarget
    exact absurd hlands (hfree block hblock)
  obtain ⟨first, hfirst⟩ := Option.isSome_iff_exists.mp hfirst
  exact ⟨_, linearize_eq_ok.mpr ⟨_, runs, first, htargets, hruns, hfirst, rfl⟩⟩

/-- Every leaf is laid out exactly once. -/
theorem linearize_perm {graph : Graph} {blocks : List BasicBlock}
    (h : graph.linearize = .ok blocks) :
    blocks.Perm graph.leaves ∧ (blocks.map (·.id)).Nodup := by
  obtain ⟨horderly, horder⟩ := linearize_sound h
  exact ⟨horder.perm, (horder.perm.map (·.id)).nodup_iff.mpr horderly.distinct⟩

/-- A graph has a linear order exactly if it is orderly, and the order is the one that `InOrder`
describes. -/
theorem linearize_eq_ok_iff (graph : Graph) :
    ((∃ blocks, graph.linearize = .ok blocks) ↔ Orderly graph) ∧
      ∀ blocks, graph.linearize = .ok blocks ↔ Orderly graph ∧ InOrder graph blocks := by
  refine ⟨⟨fun ⟨blocks, h⟩ => (linearize_sound h).1, Orderly.exists_linearize⟩,
    fun blocks => ⟨linearize_sound, fun ⟨horderly, horder⟩ => ?_⟩⟩
  obtain ⟨found, hfound⟩ := horderly.exists_linearize
  rw [hfound, horder.unique (linearize_sound hfound).2 horderly.distinct]

/-- A graph with a container, whose fallthroughs lead through it and back: block 3, the entry,
falls through to 1 and 1 to 2, and 5 falls through to 4. -/
def threaded : Graph where
  metadata := default
  isa := .small
  entry := 3
  blocks :=
    [(1, .basic { BasicBlock.empty 1 none with fallthrough := some (.start 2) }),
     (3, .basic { BasicBlock.empty 3 none with fallthrough := some (.start 1) }),
     (6, .group 6
      [(2, .basic (BasicBlock.empty 2 none)), (4, .basic (BasicBlock.empty 4 none)),
       (5, .basic { BasicBlock.empty 5 none with fallthrough := some (.start 4) }),
       (7, .basic (BasicBlock.empty 7 none))])]

/-- The order of `threaded`. -/
def threadedOrder : List BasicBlock :=
  [{ BasicBlock.empty 3 none with fallthrough := some (.start 1) },
   { BasicBlock.empty 1 none with fallthrough := some (.start 2) }, BasicBlock.empty 2 none,
   { BasicBlock.empty 5 none with fallthrough := some (.start 4) }, BasicBlock.empty 4 none,
   BasicBlock.empty 7 none]

theorem threaded_linearize : threaded.linearize = .ok threadedOrder := by
  have htargets : [4, 1, 2].mergeSort (· ≤ ·) = [1, 2, 4] :=
    mergeSort_of_perm (by decide) (by decide)
  have hruns : [1, 2, 4].foldlM (fun runs target => joinAt target runs)
      (threaded.leaves.map fun block => [block]) =
      .ok [threadedOrder.take 3, (threadedOrder.drop 3).take 2, threadedOrder.drop 5] := rfl
  refine linearize_eq_ok.mpr ⟨[4, 1, 2], _, _, rfl, by rw [htargets]; exact hruns, rfl, ?_⟩
  rw [List.mergeSort_of_pairwise (by decide)]
  rfl

theorem threaded_order :
    threaded.linearize = .ok threadedOrder ∧ Orderly threaded ∧ InOrder threaded threadedOrder :=
  ⟨threaded_linearize, ((linearize_eq_ok_iff threaded).2 threadedOrder).mp threaded_linearize⟩

end Graph
end StackCode
