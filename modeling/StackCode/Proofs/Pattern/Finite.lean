import StackCode.Proofs.Pattern.Drivers

/-!
Finite enumerations.  Where the ways of a pattern come to an end without an error, every search has
an answer that no more fuel changes, and the matches in a sequence are a list.
-/

namespace StackCode

variable {τ ν : Type} [Capturable τ ν] [DecidableEq τ]

/-- The ways of a cursor come to an end, and not with an error. -/
inductive Cursor.Finishes (sequence : Array τ) : Cursor τ ν → Captures ν → Prop where
  | done {cursor next : Cursor τ ν} {captures left : Captures ν}
    (h : Reaches sequence cursor captures (.done next left)) : Finishes sequence cursor captures
  | way {cursor next : Cursor τ ν} {captures opened : Captures ν} {stop : Nat}
    (h : Reaches sequence cursor captures (.way stop next opened))
    (hrest : Finishes sequence next opened) : Finishes sequence cursor captures

/-- At every place of the sequence, the ways of the pattern come to an end, and not with an
error. -/
def Pattern.Finishes (pattern : Pattern τ ν) (sequence : Array τ) : Prop :=
  ∀ start < sequence.size, (pattern.cursor start).Finishes sequence Matcher.freshCaptures

/-- Whatever emits ways without an error behind them comes to an end. -/
theorem Cursor.Emits.finishes {sequence : Array τ} {cursor : Cursor τ ν} {captures : Captures ν}
    {ways : Ways ν} (h : cursor.Emits sequence captures ways) (hways : ways.error? = none) :
    cursor.Finishes sequence captures := by
  induction h with
  | done hreach => exact .done hreach
  | failed => cases hways
  | way hreach _ ih => exact .way hreach (ih hways)

theorem Cursor.Finishes.emits {sequence : Array τ} {cursor : Cursor τ ν} {captures : Captures ν}
    (h : cursor.Finishes sequence captures) :
    ∃ ways, cursor.Emits sequence captures ways ∧ ways.error? = none := by
  induction h with
  | done hreach => exact ⟨.done, .done hreach, rfl⟩
  | way hreach _ ih =>
    obtain ⟨rest, hrest, hnone⟩ := ih
    exact ⟨_, .way hreach hrest, hnone⟩

/-- Productive patterns come to an end wherever no error stands behind their ways. -/
theorem Pattern.Productive.finishes {sequence : Array τ} {pattern : Pattern τ ν}
    (h : pattern.Productive sequence)
    (herror : ∀ start < sequence.size,
      (pattern.ways sequence start (Matcher.freshCaptures : Captures ν).snapshot).error? = none) :
    pattern.Finishes sequence := by
  exact fun start hstart => (h.emits start Matcher.freshCaptures).finishes (herror start hstart)

namespace Matcher

variable {sequence : Array τ}

/-! ## Answers -/

variable {matcher : Matcher τ ν}

theorem exists_matchAt (h : matcher.pattern.Finishes sequence) {start : Nat}
    (hstart : start < sequence.size) :
    ∃ answer, Converges (fun fuel => matcher.matchAt fuel sequence start) (.ok answer) := by
  obtain ⟨ways, hemits, hnone⟩ := (h start hstart).emits
  obtain ⟨choice, hselects, hsettles⟩ := matchAt_settles hemits
  obtain ⟨chosen, rfl⟩ := hselects.eq_ok hnone
  exact ⟨chosen.map (Match.ofWay start), hsettles⟩

/-- At every place there is an answer, and it is no error. -/
theorem exists_answers (h : matcher.pattern.Finishes sequence) :
    ∃ answers : Nat → Option (Match ν),
      matcher.Answers sequence fun place => .ok (answers place) := by
  have hanswer : ∀ place, ∃ answer, place < sequence.size →
      Converges (fun fuel => matcher.matchAt fuel sequence place) (.ok answer) := by
    intro place
    by_cases hplace : place < sequence.size
    · obtain ⟨answer, hanswer⟩ := exists_matchAt h hplace
      exact ⟨answer, fun _ => hanswer⟩
    · exact ⟨none, fun hlt => absurd hlt hplace⟩
  choose answers hanswers using hanswer
  exact ⟨answers, hanswers⟩

theorem exists_searchFrom (h : matcher.pattern.Finishes sequence) (start : Nat) :
    ∃ answer, Converges (fun fuel => matcher.searchFrom fuel sequence start) (.ok answer) := by
  obtain ⟨answers, hanswers⟩ := exists_answers h
  obtain ⟨answer, hleftmost, hsettles⟩ := hanswers.searchFrom start
  cases hleftmost with
  | here place _ _ hanswer =>
    cases hanswer
    exact ⟨answers place, hsettles⟩
  | nowhere => exact ⟨none, hsettles⟩

/-! ## Lists of matches -/

/-- The matches from `position` on that do not overlap, from left to right. -/
inductive Finds (matcher : Matcher τ ν) (sequence : Array τ) : Nat → List (Match ν) → Prop where
  | none {position : Nat}
    (h : Converges (fun fuel => matcher.searchFrom fuel sequence position) (.ok none)) :
    Finds matcher sequence position []
  | some {position : Nat} {found : Match ν} {rest : List (Match ν)}
    (h : Converges (fun fuel => matcher.searchFrom fuel sequence position) (.ok (some found)))
    (hrest : Finds matcher sequence (max found.stop (found.start + 1)) rest) :
    Finds matcher sequence position (found :: rest)

/-- The match that a search converges to lies at or behind its start. -/
theorem covers_of_converges {position : Nat} {found : Match ν}
    (h : Converges (fun fuel => matcher.searchFrom fuel sequence position) (.ok (some found))) :
    position ≤ found.start ∧ found.start < sequence.size ∧
      found.Covers sequence found.start := by
  obtain ⟨need, h⟩ := h
  exact searchFrom_covers (h need (Nat.le_refl need))

/-- A search of the sequence can come to that match. -/
def Gives (matcher : Matcher τ ν) (sequence : Array τ) (found : Match ν) : Prop :=
  found.start < sequence.size ∧
    Converges (fun fuel => matcher.matchAt fuel sequence found.start) (.ok (some found))

theorem Gives.covers {found : Match ν} (h : matcher.Gives sequence found) :
    found.Covers sequence found.start := by
  obtain ⟨hstart, need, h⟩ := h
  exact matchAt_covers (h need (Nat.le_refl need)) (Nat.le_of_lt hstart)

theorem gives_of_converges {position : Nat} {found : Match ν}
    (h : Converges (fun fuel => matcher.searchFrom fuel sequence position) (.ok (some found))) :
    matcher.Gives sequence found := by
  refine ⟨(covers_of_converges h).2.1, ?_⟩
  obtain ⟨need, h⟩ := h
  exact ⟨need, fun fuel hfuel => (searchFrom_first (h fuel hfuel)).2 found rfl⟩

theorem Gives.searchFrom {found : Match ν} (h : matcher.Gives sequence found) :
    Converges (fun fuel => matcher.searchFrom fuel sequence found.start) (.ok (some found)) := by
  obtain ⟨hstart, need, h⟩ := h
  refine ⟨need, fun fuel hfuel => ?_⟩
  have hcount : sequence.size - found.start = sequence.size - (found.start + 1) + 1 := by omega
  have hmatch := h fuel hfuel
  dsimp only at hmatch ⊢
  rw [Matcher.searchFrom, hcount, searchIn, hmatch]

theorem Finds.length_le {position : Nat} {found : List (Match ν)}
    (h : matcher.Finds sequence position found) : found.length ≤ sequence.size - position := by
  induction h with
  | none => exact Nat.zero_le _
  | some h _ ih =>
    obtain ⟨hlow, hhigh, -⟩ := covers_of_converges h
    rw [List.length_cons]
    omega

theorem Finds.unique {position : Nat} {found others : List (Match ν)}
    (h : matcher.Finds sequence position found) (hothers : matcher.Finds sequence position others) :
    found = others := by
  induction h generalizing others with
  | none h =>
    cases hothers with
    | none => rfl
    | some hother => cases h.unique hother
  | some h _ ih =>
    cases hothers with
    | none hother => cases h.unique hother
    | some hother hrest =>
      cases h.unique hother
      rw [ih hrest]

theorem Finds.findFrom {position : Nat} {found : List (Match ν)}
    (h : matcher.Finds sequence position found) :
    ∃ need, ∀ fuel, need ≤ fuel → ∀ limit, found.length ≤ limit →
      matcher.findFrom fuel sequence false limit position = found.map .ok := by
  induction h with
  | none h =>
    obtain ⟨need, h⟩ := h
    refine ⟨need, fun fuel hfuel limit _ => ?_⟩
    cases limit with
    | zero => rfl
    | succ limit => simp only [Matcher.findFrom, h fuel hfuel, List.map_nil]
  | some h _ ih =>
    obtain ⟨need, h⟩ := h
    obtain ⟨enough, ih⟩ := ih
    refine ⟨max need enough, fun fuel hfuel limit hlimit => ?_⟩
    cases limit with
    | zero => cases hlimit
    | succ limit =>
      rw [List.map_cons, ← ih fuel (by omega) limit (Nat.le_of_succ_le_succ hlimit)]
      simp only [Matcher.findFrom, h fuel (by omega), Bool.false_eq_true, if_false]

theorem Finds.findAll {found : List (Match ν)} (h : matcher.Finds sequence 0 found) :
    Converges (fun fuel => matcher.findAll fuel sequence false) (found.map .ok) := by
  obtain ⟨need, hfind⟩ := h.findFrom
  exact ⟨need, fun fuel hfuel => hfind fuel hfuel _ h.length_le⟩

/-- Where the ways of the pattern come to an end, so do its matches. -/
theorem exists_finds (h : matcher.pattern.Finishes sequence) :
    ∀ {remaining position : Nat}, sequence.size - position < remaining →
      ∃ found, matcher.Finds sequence position found := by
  -- By induction on the places that are left, as each match moves the search on by one at least.
  intro remaining
  induction remaining with
  | zero => exact fun hremaining => absurd hremaining (Nat.not_lt_zero _)
  | succ remaining ih =>
    intro position hremaining
    obtain ⟨answer, hanswer⟩ := exists_searchFrom h position
    cases answer with
    | none => exact ⟨[], .none hanswer⟩
    | some found =>
      obtain ⟨hlow, hhigh, -⟩ := covers_of_converges hanswer
      obtain ⟨rest, hrest⟩ := ih (show
        sequence.size - max found.stop (found.start + 1) < remaining by omega)
      exact ⟨found :: rest, .some hanswer hrest⟩

end Matcher
end StackCode
