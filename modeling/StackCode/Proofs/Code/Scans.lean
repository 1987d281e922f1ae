import StackCode.Proofs.Code.Windows

/-!
Searches of bodies.  A search either ends, with windows in place of its matches, or it comes to a
match that covers nothing and does not leave it, because the editor puts instructions at that place
whenever it is handed the match.
-/

namespace StackCode

variable {σ : Type}

/-! ## Numbers of matches -/

/-- With more and more fuel, the run hands over more and more matches. -/
def CodeSearch.Unbounded {α : Type} (run : Nat → α × CodeSearch σ) : Prop :=
  ∀ count, ∃ need, ∀ fuel, need ≤ fuel → count ≤ (run fuel).2.matchCount

/-- A run that has handed over as many matches as an unbounded one is unbounded. -/
theorem CodeSearch.Unbounded.of_le {α β : Type} {run : Nat → α × CodeSearch σ}
    {other : Nat → β × CodeSearch σ} (h : Unbounded run) (enough : Nat)
    (hle : ∀ fuel, enough ≤ fuel → (run fuel).2.matchCount ≤ (other fuel).2.matchCount) :
    Unbounded other := by
  intro count
  obtain ⟨need, hcount⟩ := h count
  exact ⟨max need enough, fun fuel hfuel =>
    Nat.le_trans (hcount fuel (by omega)) (hle fuel (by omega))⟩

section Counts

variable (matcher : Matcher Instruction CodeCapture) (editor : Editor σ)

theorem CodeSearch.matchCount_le_scan :
    ∀ (fuel position : Nat) (block : BasicBlock) (search : CodeSearch σ),
      search.matchCount ≤ (scan matcher editor fuel position block search).2.matchCount := by
  intro fuel
  induction fuel with
  | zero => exact fun _ _ _ => Nat.le_refl _
  | succ fuel ih =>
    intro position block search
    rw [scan]
    split
    · exact Nat.le_refl _
    · exact Nat.le_refl _
    · dsimp only
      split
      · rw [if_pos rfl]
        refine Nat.le_trans ?_ (ih _ _ _)
        exact Nat.le_succ _
      · exact Nat.le_succ _
      · exact Nat.le_succ _

variable (fuel : Nat)

mutual

theorem CodeSearch.matchCount_le_walk : ∀ (block : Block) (search : CodeSearch σ),
    search.matchCount ≤ (walk matcher editor fuel search block).2.matchCount
  | .basic leaf, search => by
    rw [walk]
    split
    · exact matchCount_le_scan matcher editor fuel 0 leaf search
    · exact Nat.le_refl _
  | .group id children, search => by
    rw [walk]
    exact matchCount_le_walkAll children search

theorem CodeSearch.matchCount_le_walkAll : ∀ (blocks : List (Nat × Block)) (search : CodeSearch σ),
    search.matchCount ≤ (walkAll matcher editor fuel search blocks).2.matchCount
  | [], search => by
    exact Nat.le_of_eq (by rw [walkAll])
  | (key, child) :: rest, search => by
    rw [walkAll]
    exact Nat.le_trans (matchCount_le_walk child search) (matchCount_le_walkAll rest _)

end

end Counts

/-! ## Matches that a search does not leave -/

/-- Handed a match so many times already, the editor makes the block longer when it is handed the
match once more. -/
def Editor.LongerAfter (editor : Editor σ) (size : Nat) (found : Match CodeCapture) (count : Nat)
    (block : BasicBlock) (search : CodeSearch σ) : Prop :=
  (editor.handOver size (List.replicate count found) block search).1.instructions.length <
    (editor.handOver size (List.replicate (count + 1) found) block search).1.instructions.length

/-- Handed one and the same match again and again, the editor makes the block longer each time. -/
def Editor.Grows (editor : Editor σ) (size : Nat) (found : Match CodeCapture) (block : BasicBlock)
    (search : CodeSearch σ) : Prop :=
  ∀ count, editor.LongerAfter size found count block search

/-- Of a body, the editor is handed these matches and leaves windows in their place.  What stands in
front of `base` is `done`. -/
structure Editor.Leaves (editor : Editor σ) (fits : Nat → List Instruction → Prop)
    (body : List Instruction) (base : Nat) (done : List Instruction) (block : BasicBlock)
    (search : CodeSearch σ) (replacements : List Replacement) : Prop where
  fits : ∀ replacement ∈ replacements, fits replacement.found.size replacement.window
  left : (editor.handOver body.length (replacements.map (·.found)) block search).1 =
    { block with instructions := done ++ substitute body base replacements }

/-- After some replacements, the search comes to a match that covers nothing, and whenever the
editor is handed that match, it puts instructions there. -/
structure Editor.Clings (editor : Editor σ) (matcher : Matcher Instruction CodeCapture)
    (fits : Nat → List Instruction → Prop) (body : List Instruction) (base gap : Nat)
    (done : List Instruction) (block : BasicBlock) (search : CodeSearch σ)
    (replacements : List Replacement) (found : Match CodeCapture) : Prop where
  comes : ∃ last, matcher.Sweeping body.toArray (base + gap) replacements last ∧
    Converges (fun fuel => matcher.searchFrom fuel body.toArray last) (.ok (some found))
  leaves : editor.Leaves fits body base done block search replacements
  isEmpty : found.isEmpty
  grows : editor.Grows body.length found
    (editor.handOver body.length (replacements.map (·.found)) block search).1
    (editor.handOver body.length (replacements.map (·.found)) block search).2

/-! ## Scans -/

section Scan

variable {matcher : Matcher Instruction CodeCapture} {editor : Editor σ}
  {fits : Nat → List Instruction → Prop} {body done : List Instruction} {base gap : Nat}
  {block edited : BasicBlock} {search later : CodeSearch σ} {first : Replacement}
  {rest : List Replacement} {found : Match CodeCapture}

theorem Editor.Leaves.nil (hblock : block.instructions = done ++ body.drop base) :
    editor.Leaves fits body base done block search [] := by
  refine ⟨fun _ hmem => absurd hmem List.not_mem_nil, ?_⟩
  rw [substitute, ← hblock]
  rfl

theorem Editor.Leaves.cons
    (hputs : editor.Puts fits body base done first block search edited later)
    (h : editor.Leaves fits body first.found.stop (first.extend body done base) edited later rest) :
    editor.Leaves fits body base done block search (first :: rest) := by
  refine ⟨List.forall_mem_cons.mpr ⟨hputs.window, h.fits⟩, ?_⟩
  rw [List.map_cons, hputs.hands, h.left, hputs.replaced, substitute, Replacement.extend]
  simp only [List.append_assoc]

theorem Editor.Clings.cons
    (hfirst : Converges (fun fuel => matcher.searchFrom fuel body.toArray (base + gap))
      (.ok (some first.found)))
    (hputs : editor.Puts fits body base done first block search edited later)
    (h : editor.Clings matcher fits body first.found.stop first.gap (first.extend body done base)
      edited later rest found) :
    editor.Clings matcher fits body base gap done block search (first :: rest) found := by
  obtain ⟨last, hsweeping, hfound⟩ := h.comes
  refine ⟨⟨last, .some hfirst hsweeping, hfound⟩, .cons hputs h.leaves, h.isEmpty, ?_⟩
  rw [List.map_cons, hputs.hands]
  exact h.grows

theorem Replacement.isEmpty_of_inserts (h : first.inserts = true) : first.found.isEmpty = true :=
  (Bool.and_eq_true_iff.mp h).1

theorem Replacement.size_of_inserts (h : first.inserts = true) : first.found.size = 0 := by
  rw [Match.size, of_decide_eq_true (first.isEmpty_of_inserts h), Nat.sub_self]

theorem Replacement.window_ne_of_inserts (h : first.inserts = true) : first.window ≠ [] := by
  have hwindow := (Bool.and_eq_true_iff.mp h).2
  rwa [Bool.not_eq_true', List.isEmpty_eq_false_iff] at hwindow

/-- At an empty match, an editor inserts exactly if it makes the block longer. -/
theorem Editor.Puts.inserts_iff
    (hputs : editor.Puts fits body base done first block search edited later)
    (hblock : block.instructions = done ++ body.drop base) (hbase : base ≤ first.found.start)
    (hcovers : first.found.Covers body.toArray first.found.start) (hempty : first.found.isEmpty) :
    first.inserts = true ↔ block.instructions.length < edited.instructions.length := by
  have hlength := length_edited first hblock hbase hcovers
  have hsize : first.found.size = 0 := by
    rw [Match.size, of_decide_eq_true hempty, Nat.sub_self]
  rw [Replacement.inserts, hempty, Bool.true_and, Bool.not_eq_true', List.isEmpty_eq_false_iff,
    ← List.length_pos_iff, hputs.replaced]
  dsimp only
  omega

/-- Behind what was inserted at an empty match, the search finds this match again. -/
theorem Replacement.found_again {position : Nat}
    (hfound : Converges (fun fuel => matcher.searchFrom fuel body.toArray position)
      (.ok (some first.found)))
    (hinserts : first.inserts = true) :
    Converges (fun fuel => matcher.searchFrom fuel body.toArray (first.found.stop + first.gap))
      (.ok (some first.found)) := by
  rw [gap, if_neg (first.window_ne_of_inserts hinserts), Nat.add_zero,
    of_decide_eq_true (first.isEmpty_of_inserts hinserts)]
  exact (Matcher.gives_of_converges hfound).searchFrom

/-- The number of matches goes up with each one that is handed over. -/
theorem Editor.Puts.matchCount
    (hputs : editor.Puts fits body base done first block search edited later) :
    later.matchCount = search.matchCount + 1 := by
  have hcount := editor.handOver_matches body.length [first.found] block search
  rwa [hputs.hands] at hcount

theorem Editor.Puts.longerAfter_zero_iff
    (hputs : editor.Puts fits body base done first block search edited later) :
    editor.LongerAfter body.length first.found 0 block search ↔
      block.instructions.length < edited.instructions.length := by
  rw [LongerAfter, List.replicate_succ, hputs.hands]
  rfl

theorem Editor.Puts.longerAfter_succ_iff
    (hputs : editor.Puts fits body base done first block search edited later) {count : Nat} :
    editor.LongerAfter body.length first.found (count + 1) block search ↔
      editor.LongerAfter body.length first.found count edited later := by
  rw [LongerAfter, List.replicate_succ, List.replicate_succ, hputs.hands, hputs.hands]
  rfl

/-- At an empty match where the editor always inserts, the search goes on for ever. -/
theorem CodeSearch.scan_unbounded (heditor : editor.Splices matcher fits)
    (hempty : found.isEmpty) :
    ∀ (count base gap : Nat) (done : List Instruction) {block : BasicBlock}
      {search : CodeSearch σ}, base ≤ body.length →
      block.instructions = done ++ body.drop base → search.status = .running →
      Converges (fun fuel => matcher.searchFrom fuel body.toArray (base + gap))
        (.ok (some found)) →
      editor.Grows body.length found block search →
      ∃ need, ∀ fuel, need ≤ fuel → search.matchCount + count ≤
        (scan matcher editor fuel (done.length + gap) block search).2.matchCount := by
  intro count
  induction count with
  | zero =>
    exact fun _ _ _ _ _ _ _ _ _ _ => ⟨0, fun fuel _ => matchCount_le_scan matcher editor fuel _ _ _⟩
  | succ count ih =>
    intro base gap done block search hbase hblock hrunning hfound hgrows
    obtain ⟨hlow, -, hcovers⟩ := Matcher.covers_of_converges hfound
    obtain ⟨first, edited, later, rfl, hputs, hscan⟩ :=
      scan_step heditor hblock hbase hfound search hrunning
    have hstop := hcovers.stop_le
    rw [List.size_toArray] at hstop
    have hinserts : first.inserts = true := (hputs.inserts_iff hblock
      (Nat.le_of_add_right_le hlow) hcovers hempty).mpr (hputs.longerAfter_zero_iff.mp (hgrows 0))
    obtain ⟨enough, hcount⟩ := ih first.found.stop first.gap (first.extend body done base) hstop
      (congrArg BasicBlock.instructions hputs.replaced) hputs.running
      (first.found_again hfound hinserts) fun count =>
        hputs.longerAfter_succ_iff.mp (hgrows (count + 1))
    obtain ⟨need, hfound⟩ := hfound
    refine ⟨max need enough + 1, fun fuel hfuel => ?_⟩
    obtain ⟨fuel, rfl⟩ : ∃ less, fuel = less + 1 := ⟨fuel - 1, by omega⟩
    have hless := hcount fuel (by omega)
    rw [hputs.matchCount] at hless
    rw [hscan fuel (hfound fuel (by omega))]
    omega

/-- What becomes of the search of a body, from a place `gap` instructions behind what was edited:
it hands over what it would find in the original body, or it does not leave an empty match. -/
inductive CodeSearch.ScanOutcome (matcher : Matcher Instruction CodeCapture) (editor : Editor σ)
    (fits : Nat → List Instruction → Prop) (body : List Instruction) (base gap : Nat)
    (done : List Instruction) (block : BasicBlock) (search : CodeSearch σ) : Prop where
  | ends {replacements : List Replacement}
    (hsweeps : matcher.Sweeps body.toArray (base + gap) replacements)
    (hleaves : editor.Leaves fits body base done block search replacements)
    (hconverges : Converges (fun fuel => scan matcher editor fuel (done.length + gap) block search)
      (editor.handOver body.length (replacements.map (·.found)) block search))
  | clings {replacements : List Replacement} {found : Match CodeCapture}
    (hclings : editor.Clings matcher fits body base gap done block search replacements found)
    (hinserts : ∃ window, window ≠ [] ∧ fits 0 window)
    (hunbounded : Unbounded fun fuel =>
      scan matcher editor fuel (done.length + gap) block search)

/-- What becomes of the search is settled behind the first match. -/
theorem CodeSearch.ScanOutcome.cons
    (hfirst : Converges (fun fuel => matcher.searchFrom fuel body.toArray (base + gap))
      (.ok (some first.found)))
    (hputs : editor.Puts fits body base done first block search edited later)
    (hscan : ∀ fuel, matcher.searchFrom fuel body.toArray (base + gap) = .ok (some first.found) →
      scan matcher editor (fuel + 1) (done.length + gap) block search =
        scan matcher editor fuel ((first.extend body done base).length + first.gap) edited later)
    (h : ScanOutcome matcher editor fits body first.found.stop first.gap
      (first.extend body done base) edited later) :
    ScanOutcome matcher editor fits body base gap done block search := by
  cases h with
  | @ends rest hsweeps hleaves hconverges =>
    refine .ends (.some hfirst hsweeps) (.cons hputs hleaves) ?_
    obtain ⟨need, hfound⟩ := hfirst
    rw [List.map_cons, hputs.hands]
    exact hconverges.of_succ need fun fuel hfuel => hscan fuel (hfound fuel hfuel)
  | clings hclings hinserts hunbounded =>
    refine .clings (.cons hfirst hputs hclings) hinserts fun count => ?_
    obtain ⟨need, hfound⟩ := hfirst
    obtain ⟨enough, hcount⟩ := hunbounded count
    refine ⟨max need enough + 1, fun fuel hfuel => ?_⟩
    obtain ⟨fuel, rfl⟩ : ∃ less, fuel = less + 1 := ⟨fuel - 1, by omega⟩
    have hless := hcount fuel (by omega)
    dsimp only at hless ⊢
    rwa [hscan fuel (hfound fuel (by omega))]

/-- Where every search further on in the body is settled, so is one that gets on with its match. -/
theorem CodeSearch.ScanOutcome.of_moves {remaining : Nat}
    (hbehind : ∀ (base gap : Nat) (done : List Instruction) {block : BasicBlock}
      {search : CodeSearch σ}, body.length - (base + gap) < remaining → base ≤ body.length →
      block.instructions = done ++ body.drop base → search.status = .running →
      ScanOutcome matcher editor fits body base gap done block search)
    (hremaining : body.length - (base + gap) ≤ remaining)
    (hfirst : Converges (fun fuel => matcher.searchFrom fuel body.toArray (base + gap))
      (.ok (some first.found)))
    (hputs : editor.Puts fits body base done first block search edited later)
    (hscan : ∀ fuel, matcher.searchFrom fuel body.toArray (base + gap) = .ok (some first.found) →
      scan matcher editor (fuel + 1) (done.length + gap) block search =
        scan matcher editor fuel ((first.extend body done base).length + first.gap) edited later)
    (hmoves : first.inserts = false) :
    ScanOutcome matcher editor fits body base gap done block search := by
  obtain ⟨hlow, hhigh, hcovers⟩ := Matcher.covers_of_converges hfirst
  have hstop := hcovers.stop_le
  have hnext := first.lt_stop_add_gap hcovers.le hmoves
  rw [List.size_toArray] at hhigh hstop
  exact .cons hfirst hputs hscan (hbehind _ _ _ (by omega) hstop
    (congrArg BasicBlock.instructions hputs.replaced) hputs.running)

/-- Unless the editor inserts for ever at a match, what becomes of the search is settled further on
in the body. -/
theorem CodeSearch.scan_leaves (heditor : editor.Splices matcher fits) {remaining : Nat}
    (hbehind : ∀ (base gap : Nat) (done : List Instruction) {block : BasicBlock}
      {search : CodeSearch σ}, body.length - (base + gap) < remaining → base ≤ body.length →
      block.instructions = done ++ body.drop base → search.status = .running →
      ScanOutcome matcher editor fits body base gap done block search) :
    ∀ (count base gap : Nat) (done : List Instruction) {block : BasicBlock}
      {search : CodeSearch σ}, body.length - (base + gap) ≤ remaining → base ≤ body.length →
      block.instructions = done ++ body.drop base → search.status = .running →
      Converges (fun fuel => matcher.searchFrom fuel body.toArray (base + gap))
        (.ok (some found)) →
      (found.isEmpty → ¬editor.LongerAfter body.length found count block search) →
      ScanOutcome matcher editor fits body base gap done block search := by
  -- By induction on how often the editor inserts before it stops doing so.
  intro count
  induction count with
  | zero =>
    intro base gap done block search hremaining hbase hblock hrunning hfound hstays
    obtain ⟨hlow, -, hcovers⟩ := Matcher.covers_of_converges hfound
    obtain ⟨first, edited, later, rfl, hputs, hscan⟩ :=
      scan_step heditor hblock hbase hfound search hrunning
    refine .of_moves hbehind hremaining hfound hputs hscan (Bool.eq_false_iff.mpr ?_)
    intro hinserts
    have hempty := first.isEmpty_of_inserts hinserts
    exact hstays hempty (hputs.longerAfter_zero_iff.mpr
      ((hputs.inserts_iff hblock (Nat.le_of_add_right_le hlow) hcovers hempty).mp hinserts))
  | succ count ih =>
    intro base gap done block search hremaining hbase hblock hrunning hfound hstays
    obtain ⟨hlow, -, hcovers⟩ := Matcher.covers_of_converges hfound
    obtain ⟨first, edited, later, rfl, hputs, hscan⟩ :=
      scan_step heditor hblock hbase hfound search hrunning
    cases hinserts : first.inserts with
    | false => exact .of_moves hbehind hremaining hfound hputs hscan hinserts
    | true =>
      have hle := hcovers.le
      have hstop := hcovers.stop_le
      rw [List.size_toArray] at hstop
      refine .cons hfound hputs hscan (ih _ _ _ (by omega) hstop
        (congrArg BasicBlock.instructions hputs.replaced) hputs.running
        (first.found_again hfound hinserts) fun hempty => ?_)
      rw [← hputs.longerAfter_succ_iff]
      exact hstays hempty

/-- The search of a body ends, or it does not leave an empty match. -/
theorem CodeSearch.scan_outcome (hfinishes : matcher.pattern.Finishes body.toArray)
    (heditor : editor.Splices matcher fits) :
    ∀ {remaining : Nat} (base gap : Nat) (done : List Instruction) {block : BasicBlock}
      {search : CodeSearch σ}, body.length - (base + gap) < remaining → base ≤ body.length →
      block.instructions = done ++ body.drop base → search.status = .running →
      ScanOutcome matcher editor fits body base gap done block search := by
  -- By induction on what of the original body is still to be searched, not on the fuel: the bodies
  -- that are really searched are others in each step, and may have grown.
  intro remaining
  induction remaining with
  | zero => exact fun _ _ _ _ _ hremaining => absurd hremaining (Nat.not_lt_zero _)
  | succ remaining ih =>
    intro base gap done block search hremaining hbase hblock hrunning
    obtain ⟨answer, hanswer⟩ := Matcher.exists_searchFrom hfinishes (base + gap)
    cases answer with
    | none =>
      refine .ends (.none hanswer) (.nil hblock) ?_
      obtain ⟨need, hnone⟩ := hanswer
      dsimp only at hnone
      refine Converges.of_step need fun fuel hfuel => ?_
      have hsearch := matcher.searchFrom_moved fuel done hbase gap
      rw [← hblock, hnone fuel hfuel] at hsearch
      rw [scan, hsearch]
      rfl
    | some found =>
      by_cases hclings : found.isEmpty ∧ editor.Grows body.length found block search
      · obtain ⟨hempty, hgrows⟩ := hclings
        obtain ⟨hlow, -, hcovers⟩ := Matcher.covers_of_converges hanswer
        obtain ⟨first, edited, later, rfl, hputs, -⟩ :=
          scan_step heditor hblock hbase hanswer search hrunning
        have hinserts := (hputs.inserts_iff hblock (Nat.le_of_add_right_le hlow) hcovers hempty).mpr
          (hputs.longerAfter_zero_iff.mp (hgrows 0))
        refine .clings ⟨⟨_, .here, hanswer⟩, .nil hblock, hempty, hgrows⟩
          ⟨first.window, first.window_ne_of_inserts hinserts, ?_⟩ fun count => ?_
        · have hfits := hputs.window
          rwa [first.size_of_inserts hinserts] at hfits
        · obtain ⟨need, hcount⟩ := scan_unbounded heditor hempty count base gap done hbase hblock
            hrunning hanswer hgrows
          exact ⟨need, fun fuel hfuel => Nat.le_of_add_left_le (hcount fuel hfuel)⟩
      · obtain ⟨count, hstays⟩ : ∃ count, found.isEmpty →
            ¬editor.LongerAfter body.length found count block search := by
          by_cases hempty : found.isEmpty = true
          · obtain ⟨count, hcount⟩ := not_forall.mp fun hgrows => hclings ⟨hempty, hgrows⟩
            exact ⟨count, fun _ => hcount⟩
          · exact ⟨0, fun h => absurd h hempty⟩
        exact scan_leaves heditor ih count base gap done (Nat.le_of_lt_succ hremaining) hbase hblock
          hrunning hanswer hstays

end Scan

end StackCode
