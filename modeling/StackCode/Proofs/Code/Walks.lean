import StackCode.Proofs.Code.Scans

/-!
Searches of whole graphs.  The basic blocks are visited in their order, each with a search of its
body, up to the first one with a match that its search does not leave.
-/

namespace StackCode

variable {σ : Type}

/-! ## Basic blocks -/

mutual

/-- The block without the bodies of its basic blocks. -/
def Block.bare : Block → Block
  | .basic block => .basic { block with instructions := [] }
  | .group id children => .group id (Block.bareOf children)

def Block.bareOf : List (Nat × Block) → List (Nat × Block)
  | [] => []
  | (key, child) :: rest => (key, child.bare) :: Block.bareOf rest

end

/-- What a search makes of basic blocks: each is left with windows in place of its matches, and the
editor was handed these matches and no others. -/
structure Editor.Handed (editor : Editor σ) (matcher : Matcher Instruction CodeCapture)
    (fits : Nat → List Instruction → Prop) (leaves : List BasicBlock) (search : CodeSearch σ)
    (replacements : List (List Replacement)) (left : List BasicBlock) (later : CodeSearch σ) :
    Prop where
  sweeps : List.Forall₂ (fun leaf replacements =>
    matcher.Sweeps leaf.instructions.toArray 0 replacements ∧
      ∀ replacement ∈ replacements, fits replacement.found.size replacement.window)
    leaves replacements
  bodies : left = List.zipWith BasicBlock.substitute leaves replacements
  handed : editor.handOverAll (leaves.zip (replacements.map (·.map (·.found)))) search =
    (left, later)

namespace Editor

theorem handOverAll_append (editor : Editor σ)
    (front back : List (BasicBlock × List (Match CodeCapture))) :
    ∀ search : CodeSearch σ, editor.handOverAll (front ++ back) search =
      ((editor.handOverAll front search).1 ++
          (editor.handOverAll back (editor.handOverAll front search).2).1,
        (editor.handOverAll back (editor.handOverAll front search).2).2) := by
  induction front with
  | nil => exact fun _ => rfl
  | cons first rest ih =>
    intro search
    simp only [List.cons_append, handOverAll, ih]

theorem handOverAll_status (editor : Editor σ)
    (blocks : List (BasicBlock × List (Match CodeCapture))) :
    ∀ search : CodeSearch σ, (editor.handOverAll blocks search).2.status = search.status := by
  induction blocks with
  | nil => exact fun _ => rfl
  | cons first rest ih =>
    intro search
    rw [handOverAll]
    simp only [ih, handOver_status]

theorem handOverAll_matches (editor : Editor σ)
    (blocks : List (BasicBlock × List (Match CodeCapture))) :
    ∀ search : CodeSearch σ, (editor.handOverAll blocks search).2.matchCount =
      search.matchCount + (blocks.flatMap (·.2)).length := by
  induction blocks with
  | nil => exact fun _ => rfl
  | cons first rest ih =>
    intro search
    rw [handOverAll, List.flatMap_cons, List.length_append, ← Nat.add_assoc]
    simp only [ih, handOver_matches]

variable {editor : Editor σ} {matcher : Matcher Instruction CodeCapture}
  {fits : Nat → List Instruction → Prop}

theorem Handed.append {leaves others : List BasicBlock} {search later last : CodeSearch σ}
    {replacements rest : List (List Replacement)} {left right : List BasicBlock}
    (h : editor.Handed matcher fits leaves search replacements left later)
    (hrest : editor.Handed matcher fits others later rest right last) :
    editor.Handed matcher fits (leaves ++ others) search (replacements ++ rest) (left ++ right)
      last := by
  have hlength := h.sweeps.length_eq
  refine ⟨List.rel_append h.sweeps hrest.sweeps, ?_, ?_⟩
  · rw [h.bodies, hrest.bodies, List.zipWith_append hlength]
  · rw [List.map_append, List.zip_append (by rw [List.length_map, hlength]), handOverAll_append,
      h.handed, hrest.handed]

end Editor

/-- The search leaves some of the basic blocks behind, and then comes to one with a match that it
does not leave. -/
def Editor.Stalls (editor : Editor σ) (matcher : Matcher Instruction CodeCapture)
    (fits : Nat → List Instruction → Prop) (leaves : List BasicBlock) (search : CodeSearch σ) :
    Prop :=
  ∃ front leaf back replacements left later made found, leaves = front ++ leaf :: back ∧
    editor.Handed matcher fits front search replacements left later ∧
    editor.Clings matcher fits leaf.instructions 0 0 [] leaf later made found

section Walk

variable {matcher : Matcher Instruction CodeCapture} {editor : Editor σ}
  {fits : Nat → List Instruction → Prop}

theorem Editor.Stalls.append {leaves : List BasicBlock} {search : CodeSearch σ}
    (h : editor.Stalls matcher fits leaves search) (others : List BasicBlock) :
    editor.Stalls matcher fits (leaves ++ others) search := by
  obtain ⟨front, leaf, back, replacements, left, later, made, found, rfl, hhanded, hclings⟩ := h
  refine ⟨front, leaf, back ++ others, replacements, left, later, made, found, ?_, hhanded, hclings⟩
  rw [List.append_assoc, List.cons_append]

theorem Editor.Handed.stalls {leaves others left : List BasicBlock} {search later : CodeSearch σ}
    {replacements : List (List Replacement)}
    (h : editor.Handed matcher fits leaves search replacements left later)
    (hothers : editor.Stalls matcher fits others later) :
    editor.Stalls matcher fits (leaves ++ others) search := by
  obtain ⟨front, leaf, back, rest, right, last, made, found, rfl, hhanded, hclings⟩ := hothers
  exact ⟨leaves ++ front, leaf, back, _, _, last, made, found, (List.append_assoc ..).symm,
    h.append hhanded, hclings⟩

mutual

/-- The search of a block visits the basic blocks inside in their order, as far as it comes. -/
theorem CodeSearch.walk_outcome (heditor : editor.Splices matcher fits) :
    ∀ (block : Block) {search : CodeSearch σ},
    (∀ leaf ∈ block.leaves, matcher.pattern.Finishes leaf.instructions.toArray) →
    search.status = .running →
    (∃ replacements left later,
      editor.Handed matcher fits block.leaves search replacements left.leaves later ∧
        left.bare = block.bare ∧
        Converges (fun fuel => walk matcher editor fuel search block) (left, later)) ∨
    editor.Stalls matcher fits block.leaves search ∧ (∃ window, window ≠ [] ∧ fits 0 window) ∧
      Unbounded fun fuel => walk matcher editor fuel search block
  | .basic leaf, search, hfinishes, hrunning => by
    have hwalk : ∀ fuel, walk matcher editor fuel search (.basic leaf) =
        (.basic (scan matcher editor fuel 0 leaf search).1,
          (scan matcher editor fuel 0 leaf search).2) := by
      intro fuel
      rw [walk, if_pos hrunning]
    cases scan_outcome (hfinishes leaf (List.mem_singleton_self leaf)) heditor 0 0 []
      (Nat.lt_succ_self _) (Nat.zero_le _) rfl hrunning with
    | @ends replacements hsweeps hleaves hconverges =>
      obtain ⟨need, hscan⟩ := hconverges
      have hleft : (editor.handOver leaf.instructions.length (replacements.map (·.found)) leaf
          search).1 = leaf.substitute replacements := hleaves.left
      refine .inl ⟨[replacements], .basic (leaf.substitute replacements),
        (editor.handOver leaf.instructions.length (replacements.map (·.found)) leaf search).2,
        ⟨.cons ⟨hsweeps, hleaves.fits⟩ .nil, rfl, ?_⟩, rfl, need, fun fuel hfuel => ?_⟩
      · rw [← hleft]
        rfl
      · have hfound : scan matcher editor fuel 0 leaf search = _ := hscan fuel hfuel
        dsimp only
        rw [hwalk, hfound, ← hleft]
    | clings hclings hinserts hunbounded =>
      refine .inr ⟨⟨[], leaf, [], [], [], search, _, _, rfl, ⟨.nil, rfl, rfl⟩, hclings⟩, hinserts,
        hunbounded.of_le 0 fun fuel _ => ?_⟩
      rw [hwalk]
      exact Nat.le_refl _
  | .group id children, search, hfinishes, hrunning => by
    rcases walkAll_outcome heditor children hfinishes hrunning with hends | hstalls
    · obtain ⟨replacements, left, later, hhanded, hbare, need, hwalk⟩ := hends
      refine .inl ⟨replacements, .group id left, later, hhanded, ?_, need, fun fuel hfuel => ?_⟩
      · rw [Block.bare, Block.bare, hbare]
      · have hchildren := hwalk fuel hfuel
        dsimp only at hchildren ⊢
        rw [walk, hchildren]
    · obtain ⟨hstalls, hinserts, hunbounded⟩ := hstalls
      refine .inr ⟨hstalls, hinserts, hunbounded.of_le 0 fun fuel _ => ?_⟩
      exact Nat.le_of_eq (by rw [walk])

theorem CodeSearch.walkAll_outcome (heditor : editor.Splices matcher fits) :
    ∀ (blocks : List (Nat × Block)) {search : CodeSearch σ},
    (∀ leaf ∈ Block.leavesOf blocks, matcher.pattern.Finishes leaf.instructions.toArray) →
    search.status = .running →
    (∃ replacements left later,
      editor.Handed matcher fits (Block.leavesOf blocks) search replacements (Block.leavesOf left)
          later ∧
        Block.bareOf left = Block.bareOf blocks ∧
        Converges (fun fuel => walkAll matcher editor fuel search blocks) (left, later)) ∨
    editor.Stalls matcher fits (Block.leavesOf blocks) search ∧
      (∃ window, window ≠ [] ∧ fits 0 window) ∧
      Unbounded fun fuel => walkAll matcher editor fuel search blocks
  | [], search, _, _ =>
    .inl ⟨[], [], search, ⟨.nil, rfl, rfl⟩, rfl, .of_forall fun _ => by rw [walkAll]⟩
  | (key, child) :: rest, search, hfinishes, hrunning => by
    rw [Block.leavesOf] at hfinishes
    obtain ⟨hchild, hrest⟩ := List.forall_mem_append.mp hfinishes
    rcases walk_outcome heditor child hchild hrunning with hends | hstalls
    · obtain ⟨replacements, left, later, hhanded, hbare, need, hwalk⟩ := hends
      have hlater : later.status = .running := by
        have hstatus := editor.handOverAll_status
          (child.leaves.zip (replacements.map (·.map (·.found)))) search
        rwa [hhanded.handed, hrunning] at hstatus
      have hall : ∀ fuel, need ≤ fuel → walkAll matcher editor fuel search ((key, child) :: rest) =
          ((key, left) :: (walkAll matcher editor fuel later rest).1,
            (walkAll matcher editor fuel later rest).2) := by
        intro fuel hfuel
        have hfirst := hwalk fuel hfuel
        dsimp only at hfirst
        rw [walkAll, hfirst]
      rcases walkAll_outcome heditor rest hrest hlater with hends | hstalls
      · obtain ⟨others, right, last, hothers, hbares, enough, hwalks⟩ := hends
        refine .inl ⟨replacements ++ others, (key, left) :: right, last, hhanded.append hothers, ?_,
          max need enough, fun fuel hfuel => ?_⟩
        · rw [Block.bareOf, Block.bareOf, hbare, hbares]
        · have hsecond := hwalks fuel (by omega)
          dsimp only at hsecond ⊢
          rw [hall fuel (by omega), hsecond]
      · obtain ⟨hstalls, hinserts, hunbounded⟩ := hstalls
        refine .inr ⟨hhanded.stalls hstalls, hinserts, hunbounded.of_le need fun fuel hfuel => ?_⟩
        exact Nat.le_of_eq (by rw [hall fuel hfuel])
    · obtain ⟨hstalls, hinserts, hunbounded⟩ := hstalls
      refine .inr ⟨hstalls.append _, hinserts, hunbounded.of_le 0 fun fuel _ => ?_⟩
      rw [walkAll]
      exact matchCount_le_walkAll matcher editor fuel rest _

end

end Walk

/-! ## Graphs -/

/-- The outcome of a search that handed over these matches and left these windows in their place.
Everything in the graph but the bodies and the metadata is as it was. -/
structure Graph.Edited (graph : Graph) (editor : Editor σ) (state : σ)
    (replacements : List (List Replacement)) (result : Graph × CodeSearch σ) : Prop where
  handed : editor.handOverAll (graph.leaves.zip (replacements.map (·.map (·.found))))
      { metadata := graph.metadata, state, matchCount := 0, status := .running } =
    (result.1.leaves, result.2)
  leaves : result.1.leaves = List.zipWith BasicBlock.substitute graph.leaves replacements
  bare : Block.bareOf result.1.blocks = Block.bareOf graph.blocks
  isa : result.1.isa = graph.isa
  entry : result.1.entry = graph.entry
  metadata : result.1.metadata = result.2.metadata
  matchCount : result.2.matchCount = replacements.flatten.length
  status : result.2.status = .running

/-- A search whose editor keeps to the windows comes to an end, and all it does is known from the
original bodies, or it does not leave an empty match. -/
theorem Graph.edit_outcome {graph : Graph} {pattern : CodePattern} {editor : Editor σ}
    {fits : Nat → List Instruction → Prop}
    (heditor : editor.Splices { pattern, strategy := .longest } fits)
    (hfinishes : ∀ leaf ∈ graph.leaves, pattern.Finishes leaf.instructions.toArray) (state : σ) :
    (∃ replacements result, List.Forall₂ (fun leaf replacements =>
        Matcher.Sweeps { pattern, strategy := .longest } leaf.instructions.toArray 0 replacements ∧
          ∀ replacement ∈ replacements, fits replacement.found.size replacement.window)
        graph.leaves replacements ∧
      graph.Edited editor state replacements result ∧
      Converges (fun fuel => graph.edit fuel pattern editor state) result) ∨
    editor.Stalls { pattern, strategy := .longest } fits graph.leaves
        { metadata := graph.metadata, state, matchCount := 0, status := .running } ∧
      (∃ window, window ≠ [] ∧ fits 0 window) ∧
      CodeSearch.Unbounded fun fuel => graph.edit fuel pattern editor state := by
  let matcher : Matcher Instruction CodeCapture := { pattern, strategy := .longest }
  let start : CodeSearch σ :=
    { metadata := graph.metadata, state, matchCount := 0, status := .running }
  have houtcome : (∃ replacements left later,
        editor.Handed matcher fits graph.leaves start replacements (Block.leavesOf left) later ∧
          Block.bareOf left = Block.bareOf graph.blocks ∧
          Converges (fun fuel => CodeSearch.walkAll matcher editor fuel start graph.blocks)
            (left, later)) ∨
      editor.Stalls matcher fits graph.leaves start ∧ (∃ window, window ≠ [] ∧ fits 0 window) ∧
        CodeSearch.Unbounded fun fuel =>
          CodeSearch.walkAll matcher editor fuel start graph.blocks :=
    CodeSearch.walkAll_outcome heditor graph.blocks hfinishes rfl
  rcases houtcome with hends | hstalls
  · obtain ⟨replacements, left, later, hhanded, hbare, need, hwalk⟩ := hends
    have hcount := editor.handOverAll_matches
      (graph.leaves.zip (replacements.map (·.map (·.found)))) start
    have hstatus := editor.handOverAll_status
      (graph.leaves.zip (replacements.map (·.map (·.found)))) start
    rw [hhanded.handed] at hcount hstatus
    refine .inl ⟨replacements, ({ graph with blocks := left, metadata := later.metadata }, later),
      hhanded.sweeps, ⟨hhanded.handed, hhanded.bodies, hbare, rfl, rfl, rfl, ?_, hstatus⟩,
      need, fun fuel hfuel => ?_⟩
    · have hlength : (replacements.map (·.map (·.found))).length ≤ graph.leaves.length := by
        rw [List.length_map]
        exact Nat.le_of_eq hhanded.sweeps.length_eq.symm
      rwa [List.flatMap_def, List.map_snd_zip hlength, ← List.map_flatten, List.length_map,
        Nat.zero_add] at hcount
    · have hblocks := hwalk fuel hfuel
      dsimp only at hblocks ⊢
      rw [edit]
      dsimp only
      rw [hblocks]
  · obtain ⟨hstalls, hinserts, hunbounded⟩ := hstalls
    exact .inr ⟨hstalls, hinserts, hunbounded.of_le 0 fun fuel _ => Nat.le_refl _⟩

/-- A search whose editor puts nothing where nothing was matched comes to an end. -/
theorem Graph.edit_converges {graph : Graph} {pattern : CodePattern} {editor : Editor σ}
    {fits : Nat → List Instruction → Prop}
    (heditor : editor.Splices { pattern, strategy := .longest } fits)
    (hprogress : ∀ window, fits 0 window → window = [])
    (hfinishes : ∀ leaf ∈ graph.leaves, pattern.Finishes leaf.instructions.toArray) (state : σ) :
    ∃ replacements result, List.Forall₂ (fun leaf replacements =>
        Matcher.Sweeps { pattern, strategy := .longest } leaf.instructions.toArray 0 replacements ∧
          ∀ replacement ∈ replacements, fits replacement.found.size replacement.window)
        graph.leaves replacements ∧
      graph.Edited editor state replacements result ∧
      Converges (fun fuel => graph.edit fuel pattern editor state) result := by
  rcases edit_outcome heditor hfinishes state with hends | ⟨-, ⟨window, hwindow, hfits⟩, -⟩
  · exact hends
  · exact absurd (hprogress window hfits) hwindow

end StackCode
