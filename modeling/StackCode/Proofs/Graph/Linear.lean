import Mathlib.Data.List.Induction
import StackCode.Graph.Linear
import StackCode.Proofs.Outcome

/-!
Linear order.  Fallthroughs have targets where no two lead to one block, and a join along one of them
puts two runs together and leaves the others alone.  Blocks that only fall through to the block
behind them keep their order.
-/

namespace StackCode

namespace BasicBlock

/-- The block that a block falls through to. -/
def next? (block : BasicBlock) : Option Nat := block.fallthrough.map (·.block)

theorem any_fallthrough (block : BasicBlock) (target : Nat) :
    block.fallthrough.any (·.block = target) = decide (block.next? = some target) := by
  rw [next?]
  cases block.fallthrough <;> simp

end BasicBlock

namespace Graph

open Outcome

/-! ### Fallthroughs -/

theorem any_id_iff {seen : List BasicBlock} {id : Nat} :
    seen.any (·.id = id) = true ↔ id ∈ seen.map (·.id) := by
  simp [List.any_eq_true, List.mem_map]

/-- Nothing that was seen falls on `block` if it is none of the targets so far. -/
theorem find?_falls_eq_none {seen : List BasicBlock} {block : Nat} :
    seen.find? (fun other => other.fallthrough.any (·.block = block)) = none ↔
      block ∉ seen.filterMap BasicBlock.next? := by
  rw [List.find?_eq_none, List.mem_filterMap]
  constructor
  · rintro h ⟨other, hother, hnext⟩
    apply h other hother
    rw [BasicBlock.any_fallthrough, hnext]
    exact decide_eq_true rfl
  · intro h other hother hfalls
    rw [BasicBlock.any_fallthrough, decide_eq_true_eq] at hfalls
    exact h ⟨other, hother, hfalls⟩

/-- A block can stand behind those that were seen if its id is new, and its fallthrough lands on a
block start that none of them lands on. -/
theorem fallthroughTargets_cons {targets : List Nat} {seen rest : List BasicBlock}
    {block : BasicBlock} :
    fallthroughTargets seen (block :: rest) = .ok targets ↔
      block.id ∉ seen.map (·.id) ∧
        (∀ label, block.fallthrough = some label →
          label.index = 0 ∧ label.block ∉ seen.filterMap BasicBlock.next?) ∧
        fallthroughTargets (block :: seen) rest = .ok targets := by
  rw [fallthroughTargets]
  by_cases hseen : block.id ∈ seen.map (·.id)
  · rw [if_pos (any_id_iff.mpr hseen)]
    exact iff_of_false (fun h => nomatch h) fun h => h.1 hseen
  · rw [if_neg (any_id_iff.not.mpr hseen)]
    cases hfall : block.fallthrough with
    | none => simp [hseen]
    | some label =>
      simp only
      by_cases hindex : label.index = 0
      · rw [if_neg (not_not.mpr hindex)]
        by_cases hshared : label.block ∈ seen.filterMap BasicBlock.next?
        · obtain ⟨other, hfind⟩ := Option.ne_none_iff_exists'.mp
            (find?_falls_eq_none.not.mpr (not_not.mpr hshared))
          rw [hfind]
          exact iff_of_false (fun h => nomatch h) fun h => (h.2.1 label rfl).2 hshared
        · rw [find?_falls_eq_none.mpr hshared]
          constructor
          · intro h
            refine ⟨hseen, fun other hother => ?_, h⟩
            rw [← Option.some.inj hother]
            exact ⟨hindex, hshared⟩
          · exact fun h => h.2.2
      · rw [if_pos hindex]
        exact iff_of_false (fun h => nomatch h) fun h => hindex (h.2.1 label rfl).1

theorem nodup_next?_cons {seen : List BasicBlock} {block : BasicBlock} :
    ((block :: seen).filterMap BasicBlock.next?).Nodup ↔
      (∀ label, block.fallthrough = some label →
        label.block ∉ seen.filterMap BasicBlock.next?) ∧
      (seen.filterMap BasicBlock.next?).Nodup := by
  rw [List.filterMap_cons, BasicBlock.next?]
  cases block.fallthrough with
  | none => simp
  | some label => simp

/-- The targets of the fallthroughs exist exactly if ids are distinct, every fallthrough lands on
a block start and no two land on the same block. -/
theorem fallthroughTargets_eq_ok {targets : List Nat} (leaves : List BasicBlock) :
    ∀ seen : List BasicBlock, (seen.map (·.id)).Nodup →
      (seen.filterMap BasicBlock.next?).Nodup →
      (fallthroughTargets seen leaves = .ok targets ↔
        ((leaves.reverse ++ seen).map (·.id)).Nodup ∧
          ((leaves.reverse ++ seen).filterMap BasicBlock.next?).Nodup ∧
          (∀ block ∈ leaves, ∀ label, block.fallthrough = some label → label.index = 0) ∧
          targets = (leaves.reverse ++ seen).filterMap BasicBlock.next?) := by
  induction leaves with
  | nil =>
    intro seen hids hnext
    rw [fallthroughTargets, Except.ok.injEq, List.reverse_nil, List.nil_append]
    constructor
    · intro h
      exact ⟨hids, hnext, by simp, h.symm⟩
    · rintro ⟨-, -, -, h⟩
      exact h.symm
  | cons block rest ih =>
    intro seen hids hnext
    rw [fallthroughTargets_cons, List.reverse_cons, List.append_assoc, List.singleton_append,
      List.forall_mem_cons]
    constructor
    · rintro ⟨hid, hlands, h⟩
      have hids' : ((block :: seen).map (·.id)).Nodup := List.nodup_cons.mpr ⟨hid, hids⟩
      have hnext' : ((block :: seen).filterMap BasicBlock.next?).Nodup :=
        nodup_next?_cons.mpr ⟨fun label hlabel => (hlands label hlabel).2, hnext⟩
      obtain ⟨hall, hnexts, hstarts, htargets⟩ := (ih (block :: seen) hids' hnext').mp h
      exact ⟨hall, hnexts, ⟨fun label hlabel => (hlands label hlabel).1, hstarts⟩, htargets⟩
    · rintro ⟨hall, hnexts, ⟨hstart, hstarts⟩, htargets⟩
      have hids' : ((block :: seen).map (·.id)).Nodup := by
        rw [List.map_append] at hall
        exact hall.of_append_right
      have hnext' : ((block :: seen).filterMap BasicBlock.next?).Nodup := by
        rw [List.filterMap_append] at hnexts
        exact hnexts.of_append_right
      exact ⟨(List.nodup_cons.mp hids').1,
        fun label hlabel => ⟨hstart label hlabel, (nodup_next?_cons.mp hnext').1 label hlabel⟩,
        (ih (block :: seen) hids' hnext').mpr ⟨hall, hnexts, hstarts, htargets⟩⟩

theorem fallthroughTargets_nil_eq_ok {leaves : List BasicBlock} {targets : List Nat} :
    fallthroughTargets [] leaves = .ok targets ↔
      (leaves.map (·.id)).Nodup ∧ (leaves.filterMap BasicBlock.next?).Nodup ∧
        (∀ block ∈ leaves, ∀ label, block.fallthrough = some label → label.index = 0) ∧
        targets = leaves.reverse.filterMap BasicBlock.next? := by
  have hmirror : leaves.reverse.Perm leaves := List.reverse_perm _
  rw [fallthroughTargets_eq_ok leaves [] .nil .nil, List.append_nil,
    (hmirror.map _).nodup_iff, (hmirror.filterMap _).nodup_iff]

/-- The pending joins of a graph are its fallthroughs. -/
theorem perm_pending (leaves : List BasicBlock) :
    ((leaves.reverse.filterMap BasicBlock.next?).mergeSort (· ≤ ·)).Perm
      (leaves.filterMap BasicBlock.next?) :=
  (List.mergeSort_perm _ _).trans ((List.reverse_perm leaves).filterMap _)

/-! ### Runs -/

namespace Run

theorem startsAt_iff {target : Nat} {run : Run} :
    run.startsAt target = true ↔ ∃ block rest, run = block :: rest ∧ block.id = target := by
  cases run <;> simp [startsAt]

theorem fallsInto_iff {target : Nat} {run : Run} :
    run.fallsInto target = true ↔
      ∃ front block, run = front ++ [block] ∧ block.next? = some target := by
  have hlast : run.fallsInto target =
      run.getLast?.any fun block => decide (block.next? = some target) := by
    rw [fallsInto]
    congr 1
    funext block
    exact block.any_fallthrough target
  rw [hlast]
  cases run using List.reverseRecOn with
  | nil => simp
  | append_singleton front block =>
    rw [List.getLast?_append]
    simp

end Run

/-- Where ids are distinct, a run is the only one that starts at its first block. -/
theorem not_startsAt {before after : List Run} {run : Run} {target : Nat}
    (hids : ((before ++ run :: after).flatten.map (·.id)).Nodup)
    (hstart : run.startsAt target = true) :
    ∀ other ∈ before ++ after, other.startsAt target = false := by
  obtain ⟨block, rest, rfl, rfl⟩ := Run.startsAt_iff.mp hstart
  intro other hmem
  rw [Bool.eq_false_iff]
  intro hsame
  obtain ⟨first, others, rfl, hid⟩ := Run.startsAt_iff.mp hsame
  have hperm : (before ++ (block :: rest) :: after).flatten.Perm
      ((block :: rest) ++ (before ++ after).flatten) :=
    (List.perm_middle.flatten).trans (by rw [List.flatten_cons])
  have hnodup := ((hperm.map (·.id)).nodup_iff).mp hids
  rw [List.map_append, List.nodup_append] at hnodup
  refine hnodup.2.2 block.id (by simp) first.id ?_ hid.symm
  exact List.mem_map.mpr ⟨first, List.mem_flatten.mpr ⟨_, hmem, by simp⟩, rfl⟩

theorem filter_startsAt {before after : List Run} {run : Run} {target : Nat}
    (hids : ((before ++ run :: after).flatten.map (·.id)).Nodup)
    (hstart : run.startsAt target = true) :
    ((before ++ run :: after).filter fun run => !run.startsAt target) = before ++ after := by
  rw [List.filter_append, List.filter_cons, if_neg (by simpa using hstart), ← List.filter_append]
  refine List.filter_eq_self.mpr fun other hmem => ?_
  rw [not_startsAt hids hstart other hmem]
  rfl

/-- Where no two blocks fall through to one block, a run is the only one that falls into it. -/
theorem not_fallsInto {before after : List Run} {run : Run} {target : Nat}
    (hnext : ((before ++ run :: after).flatten.filterMap BasicBlock.next?).Nodup)
    (hfall : run.fallsInto target = true) :
    ∀ other ∈ before ++ after, other.fallsInto target = false := by
  intro other hmem
  rw [Bool.eq_false_iff]
  intro hsame
  obtain ⟨front, block, rfl, hblock⟩ := Run.fallsInto_iff.mp hfall
  obtain ⟨front', block', rfl, hblock'⟩ := Run.fallsInto_iff.mp hsame
  have hperm : (before ++ (front ++ [block]) :: after).flatten.Perm
      ((front ++ [block]) ++ (before ++ after).flatten) :=
    (List.perm_middle.flatten).trans (by rw [List.flatten_cons])
  have hnodup := ((hperm.filterMap BasicBlock.next?).nodup_iff).mp hnext
  rw [List.filterMap_append, List.nodup_append] at hnodup
  refine hnodup.2.2 target ?_ target ?_ rfl
  · exact List.mem_filterMap.mpr ⟨block, by simp, hblock⟩
  · exact List.mem_filterMap.mpr ⟨block', List.mem_flatten.mpr ⟨_, hmem, by simp⟩, hblock'⟩

/-- A join changes only the run that falls into its target. -/
theorem map_joined {front back : List Run} {head tail : Run} {target : Nat}
    (hfall : head.fallsInto target = true)
    (hothers : ∀ run ∈ front ++ back, run.fallsInto target = false) :
    (front ++ head :: back).map (fun run => if run.fallsInto target then run ++ tail else run) =
      front ++ (head ++ tail) :: back := by
  have hkeep : ∀ runs : List Run, (∀ run ∈ runs, run.fallsInto target = false) →
      runs.map (fun run => if run.fallsInto target then run ++ tail else run) = runs := by
    intro runs hruns
    refine (List.map_congr_left fun run hrun => ?_).trans (List.map_id' runs)
    rw [hruns run hrun]
    rfl
  obtain ⟨hfront, hback⟩ := List.forall_mem_append.mp hothers
  rw [List.map_append, List.map_cons, hkeep front hfront, hkeep back hback, hfall, if_pos rfl]

theorem flatten_singles (blocks : List BasicBlock) :
    (blocks.map fun block => [block]).flatten = blocks := by
  rw [← List.flatMap_def, List.flatMap_singleton']

/-- A join puts one run behind another and leaves the others alone. -/
theorem joinAt_eq_ok {target : Nat} {runs joined : List Run}
    (hids : (runs.flatten.map (·.id)).Nodup)
    (hnext : (runs.flatten.filterMap BasicBlock.next?).Nodup)
    (hfall : ∃ run ∈ runs, run.fallsInto target = true) (h : joinAt target runs = .ok joined) :
    ∃ head tail others, head.fallsInto target = true ∧ tail.startsAt target = true ∧
      runs.Perm (head :: tail :: others) ∧ joined.Perm ((head ++ tail) :: others) := by
  rw [joinAt] at h
  cases hfind : runs.find? (Run.startsAt target) with
  | none =>
    rw [hfind] at h
    cases h
  | some tail =>
    rw [hfind] at h
    simp only at h
    split at h
    · cases h
    · rename_i hcycle
      obtain ⟨hstart, before, after, rfl, -⟩ := List.find?_eq_some_iff_append.mp hfind
      rw [filter_startsAt hids hstart] at h
      obtain ⟨head, hhead, hfalls⟩ := hfall
      have hrest : head ∈ before ++ after := by
        simp only [List.mem_append, List.mem_cons] at hhead ⊢
        rcases hhead with hhead | rfl | hhead
        · exact .inl hhead
        · exact absurd hfalls hcycle
        · exact .inr hhead
      obtain ⟨front, back, hsplit⟩ := List.append_of_mem hrest
      have hruns : (before ++ tail :: after).Perm (front ++ head :: (back ++ [tail])) := by
        refine List.perm_middle.trans ?_
        rw [hsplit]
        have : front ++ head :: (back ++ [tail]) = (front ++ head :: back) ++ [tail] := by simp
        rw [this]
        exact (List.perm_append_singleton _ _).symm
      have hothers := not_fallsInto
        ((hruns.flatten.filterMap BasicBlock.next?).nodup_iff.mp hnext) hfalls
      have hjoined : joined = front ++ (head ++ tail) :: back := by
        rw [hsplit, map_joined hfalls fun run hrun => hothers run (by
          simp only [List.mem_append] at hrun ⊢
          tauto)] at h
        exact (Except.ok.inj h).symm
      refine ⟨head, tail, front ++ back, hfalls, hstart, hruns.trans ?_, ?_⟩
      · refine List.perm_middle.trans (.cons _ ?_)
        rw [← List.append_assoc]
        exact List.perm_append_singleton _ _
      · rw [hjoined]
        exact List.perm_middle

theorem linearize_eq_ok {graph : Graph} {blocks : List BasicBlock} :
    graph.linearize = .ok blocks ↔
      ∃ targets runs first, fallthroughTargets [] graph.leaves = .ok targets ∧
        (targets.mergeSort (· ≤ ·)).foldlM (fun runs target => joinAt target runs)
          (graph.leaves.map fun block => [block]) = .ok runs ∧
        runs.find? (Run.startsAt graph.entry) = some first ∧
        blocks = first ++ ((runs.filter fun run => !run.startsAt graph.entry).mergeSort
          fun a b => a.key ≤ b.key).flatten := by
  simp only [linearize, bind_eq_ok]
  constructor
  · rintro ⟨targets, htargets, runs, hruns, h⟩
    split at h
    · split at h <;> cases h
    · rename_i first hfirst
      cases h
      exact ⟨targets, runs, first, htargets, hruns, hfirst, rfl⟩
  · rintro ⟨targets, runs, first, htargets, hruns, hfirst, rfl⟩
    exact ⟨targets, htargets, runs, hruns, by rw [hfirst]⟩

/-! ### Chains -/

/-- Each block falls through to the block behind it or to none. -/
def FallsOn : List BasicBlock → Prop
  | [] => True
  | [block] => block.fallthrough = none
  | block :: next :: rest =>
    (block.fallthrough = none ∨ block.fallthrough = some (.start next.id)) ∧ FallsOn (next :: rest)

theorem FallsOn.tail {block : BasicBlock} {rest : List BasicBlock} (h : FallsOn (block :: rest)) :
    FallsOn rest := by
  cases rest with
  | nil => exact trivial
  | cons next rest => exact h.2

/-- Fallthroughs of a chain land on its blocks but the first, in their order. -/
theorem FallsOn.sublist {blocks : List BasicBlock} (h : FallsOn blocks) :
    (blocks.filterMap BasicBlock.next?).Sublist (blocks.tail.map (·.id)) := by
  induction blocks with
  | nil => exact .slnil
  | cons block rest ih =>
    have hrest := ih h.tail
    cases rest with
    | nil =>
      have hnone : block.next? = none := by rw [BasicBlock.next?, h]; rfl
      rw [List.filterMap_cons, hnone]
      exact .slnil
    | cons next rest =>
      obtain ⟨hfall, -⟩ := h
      rw [List.filterMap_cons, BasicBlock.next?, List.tail_cons, List.map_cons]
      rcases hfall with hfall | hfall
      · rw [hfall]
        exact hrest.trans (List.sublist_cons_self _ _)
      · rw [hfall]
        exact hrest.cons_cons _

theorem FallsOn.index_eq {blocks : List BasicBlock} (h : FallsOn blocks) :
    ∀ block ∈ blocks, ∀ label, block.fallthrough = some label → label.index = 0 := by
  induction blocks with
  | nil => simp
  | cons first rest ih =>
    intro block hblock label hlabel
    rcases List.mem_cons.mp hblock with rfl | hblock
    · cases rest with
      | nil => rw [h] at hlabel; cases hlabel
      | cons next rest =>
        rcases h.1 with hfall | hfall
        · rw [hfall] at hlabel
          cases hlabel
        · rw [hfall] at hlabel
          cases hlabel
          rfl
    · exact ih h.tail block hblock label hlabel

theorem find?_startsAt {before after : List Run} {run : Run} {target : Nat}
    (hids : ((before ++ run :: after).flatten.map (·.id)).Nodup)
    (hstart : run.startsAt target = true) :
    (before ++ run :: after).find? (Run.startsAt target) = some run := by
  refine List.find?_eq_some_iff_append.mpr ⟨hstart, before, after, rfl, fun other hother => ?_⟩
  have hkept : other ∈ (before ++ run :: after).filter fun run => !run.startsAt target := by
    rw [filter_startsAt hids hstart]
    exact List.mem_append_left _ hother
  simpa using (List.mem_filter.mp hkept).2

/-- A run and the block behind it are joined where they stand. -/
theorem joinAt_neighbours {before after : List Run} {head : Run} {block : BasicBlock}
    (hids : ((before ++ head :: [block] :: after).flatten.map (·.id)).Nodup)
    (hnext : ((before ++ head :: [block] :: after).flatten.filterMap BasicBlock.next?).Nodup)
    (hfall : head.fallsInto block.id = true) :
    joinAt block.id (before ++ head :: [block] :: after) =
      .ok (before ++ (head ++ [block]) :: after) := by
  have hstart : Run.startsAt block.id [block] = true :=
    Run.startsAt_iff.mpr ⟨block, [], rfl, rfl⟩
  have hshift : before ++ head :: [block] :: after = (before ++ [head]) ++ [block] :: after := by
    simp
  have hothers := not_fallsInto hnext hfall
  have hcycle : Run.fallsInto block.id [block] = false := hothers _ (by simp)
  rw [hshift] at hids ⊢
  rw [joinAt, find?_startsAt hids hstart]
  simp only [hcycle]
  rw [filter_startsAt hids hstart, List.append_assoc, List.singleton_append,
    map_joined hfall fun run hrun => hothers run (by
      simp only [List.mem_append, List.mem_cons] at hrun ⊢
      tauto)]
  rfl

/-- The runs of a chain, joined from left to right, keep its blocks in their order. -/
theorem foldlM_joinAt_chain (rest : List BasicBlock) :
    ∀ (done : List Run) (front : Run) (block : BasicBlock),
      ((done.flatten ++ (front ++ block :: rest)).map (·.id)).Nodup →
      ((done.flatten ++ (front ++ block :: rest)).filterMap BasicBlock.next?).Nodup →
      [] ∉ done → FallsOn (block :: rest) →
      ∃ runs, ((block :: rest).filterMap BasicBlock.next?).foldlM
          (fun runs target => joinAt target runs)
          (done ++ (front ++ [block]) :: rest.map fun block => [block]) = .ok runs ∧
        runs.flatten = done.flatten ++ (front ++ block :: rest) ∧ [] ∉ runs := by
  induction rest with
  | nil =>
    intro done front block _ _ hdone hfalls
    have hnone : block.next? = none := by rw [BasicBlock.next?, hfalls]; rfl
    rw [List.filterMap_cons, hnone]
    exact ⟨_, rfl, by simp, by simpa using hdone⟩
  | cons next rest ih =>
    intro done front block hids hnexts hdone hfalls
    obtain ⟨hfall, hfalls⟩ := hfalls
    rw [List.filterMap_cons, BasicBlock.next?]
    rcases hfall with hfall | hfall
    · have hsplit : done.flatten ++ (front ++ block :: next :: rest) =
          (done ++ [front ++ [block]]).flatten ++ ([] ++ next :: rest) := by simp
      rw [hsplit] at hids hnexts ⊢
      rw [hfall]
      obtain ⟨runs, hruns, hflat, hsome⟩ := ih (done ++ [front ++ [block]]) [] next hids hnexts
        (by simpa using hdone) hfalls
      rw [List.append_assoc] at hruns
      exact ⟨runs, hruns, hflat, hsome⟩
    · have hsplit : done.flatten ++ (front ++ block :: next :: rest) =
          done.flatten ++ ((front ++ [block]) ++ next :: rest) := by simp
      have hsingles : (done ++ (front ++ [block]) :: [next] ::
          rest.map fun block => [block]).flatten =
            done.flatten ++ (front ++ block :: next :: rest) := by
        simp [flatten_singles]
      have hinto : Run.fallsInto next.id (front ++ [block]) = true :=
        Run.fallsInto_iff.mpr ⟨front, block, rfl, by rw [BasicBlock.next?, hfall]; rfl⟩
      have hjoin := joinAt_neighbours (hsingles ▸ hids) (hsingles ▸ hnexts) hinto
      rw [hsplit] at hids hnexts ⊢
      obtain ⟨runs, hruns, hflat, hsome⟩ := ih done (front ++ [block]) next hids hnexts hdone hfalls
      refine ⟨runs, ?_, hflat, hsome⟩
      rw [hfall]
      show List.foldlM _ _ (next.id :: _) = _
      rw [List.foldlM_cons]
      exact bind_eq_ok.mpr ⟨_, hjoin, hruns⟩

/-- The keys of runs are related as the ids of their blocks are. -/
theorem pairwise_key {R : Nat → Nat → Prop} {runs : List Run}
    (hids : (runs.flatten.map (·.id)).Pairwise R) (hsome : [] ∉ runs) :
    runs.Pairwise fun a b => R a.key b.key := by
  rw [List.pairwise_map, List.pairwise_flatten] at hids
  refine hids.2.imp_of_mem fun {a b} ha hb hrel => ?_
  cases a with
  | nil => exact absurd ha hsome
  | cons first others =>
    cases b with
    | nil => exact absurd hb hsome
    | cons first' others' => exact hrel first (by simp) first' (by simp)

theorem pairwise_mergeSort {α : Type} (key : α → Nat) (values : List α) :
    (values.mergeSort fun a b => key a ≤ key b).Pairwise (key · ≤ key ·) := by
  refine (List.pairwise_mergeSort ?_ ?_ values).imp of_decide_eq_true
  · intro a b c hab hbc
    simp only [decide_eq_true_eq] at hab hbc ⊢
    omega
  · intro a b
    simp only [Bool.or_eq_true, decide_eq_true_eq]
    omega

theorem mergeSort_of_perm {targets sorted : List Nat} (hperm : targets.Perm sorted)
    (hsorted : sorted.Pairwise (· < ·)) : targets.mergeSort (· ≤ ·) = sorted := by
  exact ((List.mergeSort_perm _ _).trans hperm).eq_of_pairwise
    (fun a b _ _ hab hba => Nat.le_antisymm hab hba)
    (pairwise_mergeSort (fun target => target) targets) (hsorted.imp Nat.le_of_lt)

/-- Where no run is empty, the first one starts with the first block. -/
theorem exists_first_run {runs : List Run} {first : BasicBlock} {rest : List BasicBlock}
    (hflat : runs.flatten = first :: rest) (hsome : [] ∉ runs) :
    ∃ others others', runs = (first :: others) :: others' := by
  cases runs with
  | nil => cases hflat
  | cons run others =>
    cases run with
    | nil => exact absurd List.mem_cons_self hsome
    | cons block tail =>
      rw [List.flatten_cons, List.cons_append, List.cons.injEq] at hflat
      exact ⟨tail, others, by rw [hflat.1]⟩

/-- A chain of blocks with ascending ids, entered at its first block, is laid out as it stands. -/
theorem linearize_chain {graph : Graph} {first : BasicBlock} {rest : List BasicBlock}
    (hleaves : graph.leaves = first :: rest)
    (hids : ((first :: rest).map (·.id)).Pairwise (· < ·)) (hfalls : FallsOn (first :: rest))
    (hentry : graph.entry = first.id) : graph.linearize = .ok (first :: rest) := by
  have hnodup : ((first :: rest).map (·.id)).Nodup := hids.imp fun hlt => Nat.ne_of_lt hlt
  have hsorted : ((first :: rest).filterMap BasicBlock.next?).Pairwise (· < ·) :=
    List.Pairwise.sublist hfalls.sublist (hids.sublist (List.tail_sublist _) :)
  have hnexts := hsorted.imp fun hlt => Nat.ne_of_lt hlt
  have htargets : fallthroughTargets [] graph.leaves =
      .ok ((first :: rest).reverse.filterMap BasicBlock.next?) := by
    rw [hleaves]
    exact fallthroughTargets_nil_eq_ok.mpr ⟨hnodup, hnexts, hfalls.index_eq, rfl⟩
  have hsort : ((first :: rest).reverse.filterMap BasicBlock.next?).mergeSort (· ≤ ·) =
      (first :: rest).filterMap BasicBlock.next? :=
    mergeSort_of_perm ((first :: rest).reverse_perm.filterMap _) hsorted
  obtain ⟨runs, hruns, hflat, hsome⟩ :=
    foldlM_joinAt_chain rest [] [] first hnodup hnexts (by simp) hfalls
  rw [List.flatten_nil, List.nil_append, List.nil_append] at hflat
  obtain ⟨others, others', rfl⟩ := exists_first_run hflat hsome
  have hstart : Run.startsAt graph.entry (first :: others) = true :=
    Run.startsAt_iff.mpr ⟨first, others, rfl, hentry.symm⟩
  have hruns' : (([] ++ (first :: others) :: others' : List Run).flatten.map (·.id)).Nodup := by
    rw [List.nil_append, hflat]
    exact hnodup
  have hpair : others'.Pairwise fun a b : Run => a.key ≤ b.key :=
    ((pairwise_key (hflat ▸ hids) hsome).imp Nat.le_of_lt).tail
  have hfind : ([] ++ (first :: others) :: others').find? (Run.startsAt graph.entry) =
      some (first :: others) := find?_startsAt hruns' hstart
  have hfilter : (([] ++ (first :: others) :: others').filter fun run : Run =>
      !run.startsAt graph.entry) = [] ++ others' := filter_startsAt hruns' hstart
  rw [List.nil_append] at hfind hfilter
  refine linearize_eq_ok.mpr
    ⟨_, (first :: others) :: others', first :: others, htargets, ?_, hfind, ?_⟩
  · rw [hsort, hleaves]
    exact hruns
  · rw [hfilter, List.nil_append,
      List.mergeSort_of_pairwise (hpair.imp fun hkey => decide_eq_true hkey), ← hflat]
    rfl

end Graph
end StackCode
