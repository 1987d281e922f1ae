import Mathlib.Tactic.Choose
import StackCode.Proofs.Pattern.Emissions

/-!
Matches in a sequence.

What a search finds, and which matches follow one another, depends on the answers of the matcher at
the places of the sequence only.  Where the ways of a pattern come to an end at every place, these
answers are what the strategy selects among the ways there.
-/

namespace StackCode

/-- Where a search for further matches goes on: one token behind the start of a match, or at its end
if it has tokens and they are not to overlap. -/
def Match.next {ν : Type} (overlapping : Bool) (found : Match ν) : Nat :=
  if overlapping then found.start + 1 else max found.stop (found.start + 1)

theorem Match.start_lt_next {ν : Type} (overlapping : Bool) (found : Match ν) :
    found.start < found.next overlapping := by
  rw [next]
  split
  · exact Nat.lt_succ_self _
  · exact Nat.le_max_right _ _

namespace Matcher

variable {τ ν : Type}

/-! ## Answers at places -/

section Places

variable (answers : Nat → Except Error (Option (Match ν)))

/-- The answer at the least place from `low` up to `high` that has a match or an error. -/
inductive Leftmost (low high : Nat) : Except Error (Option (Match ν)) → Prop where
  | here {answer : Except Error (Option (Match ν))} (place : Nat) (hlow : low ≤ place)
    (hhigh : place < high) (hanswer : answers place = answer) (hsome : answer ≠ .ok none)
    (hbefore : ∀ earlier, low ≤ earlier → earlier < place → answers earlier = .ok none) :
    Leftmost low high answer
  | nowhere (hnone : ∀ place, low ≤ place → place < high → answers place = .ok none) :
    Leftmost low high (.ok none)

/-- The matches from `position` on, each of which is the leftmost one from `next` of the match in
front of it on.  An error ends them. -/
inductive Successive (next : Match ν → Nat) (size : Nat) :
    Nat → List (Except Error (Match ν)) → Prop where
  | none {position : Nat} (h : Leftmost answers position size (.ok none)) :
    Successive next size position []
  | failed {position : Nat} {error : Error} (h : Leftmost answers position size (.error error)) :
    Successive next size position [.error error]
  | found {position : Nat} {found : Match ν} {rest : List (Except Error (Match ν))}
    (h : Leftmost answers position size (.ok (some found)))
    (hrest : Successive next size (next found) rest) :
    Successive next size position (.ok found :: rest)

end Places

/-- The matches among answers, up to the first error and with it. -/
def upToError : List (Except Error (Option (Match ν))) → List (Except Error (Match ν))
  | [] => []
  | .ok none :: rest => upToError rest
  | .ok (some found) :: rest => .ok found :: upToError rest
  | .error error :: _ => [.error error]

variable {answers : Nat → Except Error (Option (Match ν))}

theorem Leftmost.step {low high : Nat} {answer : Except Error (Option (Match ν))}
    (h : Leftmost answers (low + 1) high answer) (hnone : answers low = .ok none) :
    Leftmost answers low high answer := by
  have hfront : ∀ earlier, low ≤ earlier → ¬low + 1 ≤ earlier → answers earlier = .ok none := by
    intro earlier hle hlt
    have hsame : earlier = low := by omega
    rw [hsame, hnone]
  cases h with
  | here place hlow hhigh hanswer hsome hbefore =>
    refine .here place (by omega) hhigh hanswer hsome fun earlier hle hlt => ?_
    by_cases hbehind : low + 1 ≤ earlier
    · exact hbefore earlier hbehind hlt
    · exact hfront earlier hle hbehind
  | nowhere hall =>
    refine .nowhere fun place hle hlt => ?_
    by_cases hbehind : low + 1 ≤ place
    · exact hall place hbehind hlt
    · exact hfront place hle hbehind

theorem upToError_append {front back : List (Except Error (Option (Match ν)))}
    (h : ∀ answer ∈ front, answer = .ok none) : upToError (front ++ back) = upToError back := by
  induction front with
  | nil => rfl
  | cons answer rest ih =>
    obtain ⟨rfl, hrest⟩ := List.forall_mem_cons.mp h
    exact ih hrest

/-- From `low` up to the place of the leftmost answer, there is none. -/
theorem Leftmost.upToError_eq {low high : Nat} {answer : Except Error (Option (Match ν))}
    (h : Leftmost answers low high answer) (hsome : answer ≠ .ok none) :
    ∃ place, low ≤ place ∧ place < high ∧ answers place = answer ∧
      upToError ((List.range' low (high - low)).map answers) =
        upToError (answer :: (List.range' (place + 1) (high - (place + 1))).map answers) := by
  cases h with
  | nowhere => exact absurd rfl hsome
  | here place hlow hhigh hanswer _ hbefore =>
    refine ⟨place, hlow, hhigh, hanswer, ?_⟩
    have hsplit : List.range' low (high - low) =
        List.range' low (place - low) ++
          place :: List.range' (place + 1) (high - (place + 1)) := by
      have hcount : high - low = (place - low) + (high - place) := by omega
      have hplace : low + (place - low) = place := by omega
      have hrest : high - place = (high - (place + 1)) + 1 := by omega
      rw [hcount, ← List.range'_append_1, hplace, hrest, List.range'_succ]
    rw [hsplit, List.map_append, upToError_append, List.map_cons, hanswer]
    intro other hother
    obtain ⟨earlier, hmem, rfl⟩ := List.mem_map.mp hother
    rw [List.mem_range'_1] at hmem
    exact hbefore earlier hmem.1 (by omega)

/-- Matches that follow one another place by place are those of all places. -/
theorem Successive.eq_upToError {next : Match ν → Nat} {size position : Nat}
    {results : List (Except Error (Match ν))} (h : Successive answers next size position results)
    (hnext : ∀ place found, answers place = .ok (some found) → next found = place + 1) :
    results = upToError ((List.range' position (size - position)).map answers) := by
  induction h with
  | @none position h =>
    cases h with
    | here _ _ _ _ hsome => exact absurd rfl hsome
    | nowhere hnone =>
      have hall : ∀ answer ∈ (List.range' position (size - position)).map answers,
          answer = .ok Option.none := by
        intro answer hanswer
        obtain ⟨place, hmem, rfl⟩ := List.mem_map.mp hanswer
        rw [List.mem_range'_1] at hmem
        exact hnone place hmem.1 (by omega)
      rw [← List.append_nil (List.map _ _), upToError_append hall, upToError]
  | failed h =>
    obtain ⟨_, _, _, _, hall⟩ := h.upToError_eq (by simp)
    rw [hall, upToError]
  | found h _ ih =>
    obtain ⟨place, _, _, hanswer, hall⟩ := h.upToError_eq (by simp)
    rw [hnext place _ hanswer] at ih
    rw [hall, upToError, ih]

/-! ## Searches -/

variable [Capturable τ ν] [DecidableEq τ] {matcher : Matcher τ ν} {sequence : Array τ}

/-- A search settles on the leftmost answer. -/
theorem searchIn_settles : ∀ {count start : Nat},
    (∀ place, start ≤ place → place < start + count →
      Settles (fun fuel => matcher.matchAt fuel sequence place) (answers place)) →
    ∃ answer, Leftmost answers start (start + count) answer ∧
      Settles (fun fuel => matcher.searchIn fuel sequence count start) answer := by
  intro count
  induction count with
  | zero =>
    intro start _
    exact ⟨.ok none, .nowhere fun place hlow hhigh => absurd hhigh (Nat.not_lt_of_le hlow),
      .of_forall fun _ => rfl⟩
  | succ count ih =>
    intro start h
    obtain ⟨need, hstart⟩ := h start (Nat.le_refl start) (by omega)
    by_cases hnone : answers start = .ok none
    · obtain ⟨answer, hleftmost, hsettles⟩ := @ih (start + 1) fun place hlow hhigh =>
        h place (by omega) (by omega)
      have hcount : start + 1 + count = start + (count + 1) := by omega
      rw [hcount] at hleftmost
      refine ⟨answer, hleftmost.step hnone,
        Converges.of_eventually need (fun fuel hfuel => ?_) hsettles⟩
      have hrun := hstart fuel hfuel
      dsimp only at hrun ⊢
      rw [searchIn, hrun, hnone]
      rfl
    · refine ⟨answers start, .here start (Nat.le_refl start) (by omega) rfl hnone
        fun earlier hlow hhigh => absurd hhigh (Nat.not_lt_of_le hlow), need, fun fuel hfuel => ?_⟩
      have hrun := hstart fuel hfuel
      dsimp only at hrun ⊢
      rw [searchIn, hrun]
      cases hanswer : answers start with
      | error error => rfl
      | ok found =>
        cases found with
        | none => exact absurd hanswer hnone
        | some found => rfl

/-- The matcher settles on these answers in the sequence. -/
def Answers (matcher : Matcher τ ν) (sequence : Array τ)
    (answers : Nat → Except Error (Option (Match ν))) : Prop :=
  ∀ place < sequence.size,
    Settles (fun fuel => matcher.matchAt fuel sequence place) (answers place)

theorem Answers.searchFrom (h : matcher.Answers sequence answers) (start : Nat) :
    ∃ answer, Leftmost answers start sequence.size answer ∧
      Settles (fun fuel => matcher.searchFrom fuel sequence start) answer := by
  rcases Nat.lt_or_ge start sequence.size with hlt | hge
  · have hcount : start + (sequence.size - start) = sequence.size := by omega
    obtain ⟨answer, hleftmost, hsettles⟩ := @searchIn_settles _ _ answers _ _ matcher sequence
      (sequence.size - start) start fun place _ hhigh => h place (hcount ▸ hhigh)
    exact ⟨answer, hcount ▸ hleftmost, hsettles⟩
  · refine ⟨.ok none, .nowhere fun place hlow hhigh => absurd hhigh (by omega),
      .of_forall fun fuel => ?_⟩
    rw [Matcher.searchFrom, Nat.sub_eq_zero_of_le hge]
    rfl

/-! ## Lists of matches -/

/-- Matches start where they were asked for. -/
def Anchored (answers : Nat → Except Error (Option (Match ν))) : Prop :=
  ∀ place found, answers place = .ok (some found) → found.start = place

/-- The list of matches settles on those that follow one another. -/
theorem Answers.findFrom (h : matcher.Answers sequence answers) (hanchored : Anchored answers)
    (overlapping : Bool) :
    ∀ {limit position : Nat}, sequence.size - position ≤ limit →
      ∃ results, Successive answers (Match.next overlapping) sequence.size position results ∧
        Converges (fun fuel => matcher.findFrom fuel sequence overlapping limit position)
          (results.map (Except.mapError Halt.error)) := by
  intro limit
  induction limit with
  | zero =>
    intro position hlimit
    exact ⟨[], .none (.nowhere fun place hlow hhigh => absurd hhigh (by omega)),
      .of_forall fun _ => rfl⟩
  | succ limit ih =>
    intro position hlimit
    obtain ⟨answer, hleftmost, need, hsearch⟩ := h.searchFrom position
    cases answer with
    | error error =>
      refine ⟨[.error error], .failed hleftmost, need, fun fuel hfuel => ?_⟩
      have hrun := hsearch fuel hfuel
      dsimp only at hrun ⊢
      rw [Matcher.findFrom, hrun]
      rfl
    | ok found =>
      cases found with
      | none =>
        refine ⟨[], .none hleftmost, need, fun fuel hfuel => ?_⟩
        have hrun := hsearch fuel hfuel
        dsimp only at hrun ⊢
        rw [Matcher.findFrom, hrun]
        rfl
      | some found =>
        have hstart : position ≤ found.start := by
          cases hleftmost with
          | here place hlow _ hanswer => exact (hanchored place found hanswer).symm ▸ hlow
        have hnext := found.start_lt_next overlapping
        obtain ⟨rest, hrest, hsettles⟩ := ih (show
          sequence.size - found.next overlapping ≤ limit by omega)
        obtain ⟨enough, hsettles⟩ := hsettles
        refine ⟨.ok found :: rest, .found hleftmost hrest, max need enough, fun fuel hfuel => ?_⟩
        have hrun := hsearch fuel (by omega)
        have hothers := hsettles fuel (by omega)
        dsimp only at hrun hothers ⊢
        rw [Matcher.findFrom, hrun, List.map_cons, ← hothers]
        rfl

/-! ## Drivers -/

/-- What a matcher answers where its pattern emits these ways at the places of the sequence. -/
structure Drives (matcher : Matcher τ ν) (sequence : Array τ) (emissions : Nat → Ways ν)
    (answers : Nat → Except Error (Option (Match ν))) : Prop where
  /-- At each place it is what the strategy selects. -/
  matchAt : ∀ start, ∃ choice, matcher.strategy.Selects (emissions start) choice ∧
    answers start = Match.ofChoice start choice ∧
    Settles (fun fuel => matcher.matchAt fuel sequence start) (answers start)
  /-- A match lies in the sequence. -/
  covers : ∀ start ≤ sequence.size, ∀ found, answers start = .ok (some found) →
    found.Covers sequence start
  /-- A match of the whole sequence is the first way that ends with it. -/
  matchAll : ∃ choice, (emissions 0).First (· = sequence.size) choice ∧
    Settles (fun fuel => matcher.matchAll fuel sequence) (Match.ofChoice 0 choice)
  searchFrom : ∀ start, ∃ answer, Leftmost answers start sequence.size answer ∧
    Settles (fun fuel => matcher.searchFrom fuel sequence start) answer
  /-- Overlapping matches are those of all places. -/
  findOverlapping : Converges (fun fuel => matcher.findAll fuel sequence true)
    ((upToError ((List.range sequence.size).map answers)).map (Except.mapError Halt.error))
  /-- Of the others, each is the leftmost one behind the one in front of it. -/
  findApart : ∃ results,
    Successive answers (fun found => max found.stop (found.start + 1)) sequence.size 0 results ∧
    Converges (fun fuel => matcher.findAll fuel sequence false)
      (results.map (Except.mapError Halt.error))

/-- Where the ways of a pattern come to an end at every place, every driver settles on what is
selected among the ways. -/
theorem exists_drives {emissions : Nat → Ways ν}
    (hemits : ∀ start,
      (matcher.pattern.cursor start).Emits sequence freshCaptures (emissions start)) :
    ∃ answers, matcher.Drives sequence emissions answers := by
  choose choice hselects hsettles using fun start => matchAt_settles (hemits start)
  have hanswers : matcher.Answers sequence fun start => Match.ofChoice start (choice start) :=
    fun place _ => hsettles place
  have hanchored : Anchored fun start => Match.ofChoice start (choice start) :=
    fun place found hfound => Match.ofChoice_start hfound
  refine ⟨fun start => Match.ofChoice start (choice start),
    fun start => ⟨choice start, hselects start, rfl, hsettles start⟩, ?_,
    matchAll_settles (hemits 0), hanswers.searchFrom, ?_, ?_⟩
  · intro start hstart found hfound
    obtain ⟨need, hsettled⟩ := hsettles start
    have hrun := hsettled need (Nat.le_refl need)
    rw [hfound] at hrun
    exact matchAt_covers hrun hstart
  · obtain ⟨results, hresults, hfind⟩ := hanswers.findFrom hanchored true (Nat.sub_le _ 0)
    rw [hresults.eq_upToError, ← List.range_eq_range'] at hfind
    · exact hfind
    · intro place found hfound
      exact congrArg (· + 1) (hanchored place found hfound)
  · exact hanswers.findFrom hanchored false (Nat.sub_le _ 0)

/-- The longest run of `a`s, or a `b` in front of a token that nothing is bound to. -/
def stumbling : Matcher Char (Captured Char) where
  pattern := .choice [.repeated (.token (.literal 'a') none) 1 none 1,
    .chain [.token (.literal 'b') none, .token (.back "y") none]]
  strategy := .longest

/-- Each of the `a`s starts a match up to the last one, and the first `b` ends the search. -/
theorem stumbling_drives :
    (∀ start, (stumbling.pattern.cursor start).Emits #['a', 'a', 'b', 'b'] freshCaptures
      (stumbling.pattern.ways #['a', 'a', 'b', 'b'] start
        (freshCaptures : Captures (Captured Char)).snapshot)) ∧
    (∃ answers, stumbling.Drives #['a', 'a', 'b', 'b']
      (fun start => stumbling.pattern.ways #['a', 'a', 'b', 'b'] start
        (freshCaptures : Captures (Captured Char)).snapshot) answers) ∧
    stumbling.findAll 20 #['a', 'a', 'b', 'b'] true =
      [.ok ⟨0, 2, []⟩, .ok ⟨1, 2, []⟩, .error (.error (.unboundCapture "y"))] := by
  have hproductive : stumbling.pattern.Productive #['a', 'a', 'b', 'b'] := by
    have ha : (TokenTest.literal 'a' : TokenTest Char (Captured Char)).Scopeless := trivial
    have hb : (TokenTest.literal 'b' : TokenTest Char (Captured Char)).Scopeless := trivial
    have hback : (TokenTest.back "y" : TokenTest Char (Captured Char)).Scopeless := trivial
    refine .choice (List.forall_mem_cons.mpr ⟨?_, List.forall_mem_singleton.mpr ?_⟩)
    · exact .repeated (.token ha none) 1 (fun _ => Pattern.consumes_token _ _ _) 1
    · exact .chain (List.forall_mem_cons.mpr
        ⟨.token hb none, List.forall_mem_singleton.mpr (.token hback none)⟩)
  have hemits := fun start => hproductive.emits start freshCaptures
  exact ⟨hemits, exists_drives hemits, rfl⟩

end Matcher
end StackCode
