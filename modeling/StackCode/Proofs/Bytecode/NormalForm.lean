import StackCode.Proofs.Bytecode.LineTable

/-!
The normal form of line starts.  In a normal list a line starts exactly where it becomes active,
so that the lines which are active at the bytes leave no choice of the starts.  Writing a table
and reading it back gives the one normal list that keeps the line of every byte.
-/

namespace StackCode
namespace LineTable

open Outcome

/-! ### Where lines start -/

theorem lineAt_eq_none_iff {starts : List LineStart} {byte : Nat} :
    lineAt starts byte = none ↔ ∀ start ∈ starts, byte < start.offset := by
  constructor
  · intro h start hstart
    rw [lineAt, Option.map_eq_none_iff, List.getLast?_eq_none_iff, List.filter_eq_nil_iff] at h
    simpa using h start hstart
  · exact lineAt_eq_none

/-- The line of a start is active at its offset. -/
theorem lineAt_of_mem {starts : List LineStart}
    (hascending : starts.Pairwise (·.offset < ·.offset)) {start : LineStart}
    (h : start ∈ starts) : lineAt starts start.offset = some start.line := by
  induction starts with
  | nil => cases h
  | cons first rest ih =>
    obtain ⟨hfirst, hrest⟩ := List.pairwise_cons.mp hascending
    rcases List.mem_cons.mp h with rfl | h
    · rw [lineAt_cons, if_pos (Nat.le_refl _), lineAt_eq_none hfirst]
      rfl
    · have hlt : first.offset < start.offset := hfirst start h
      rw [lineAt_cons, if_pos (by omega), ih hrest h]
      rfl

/-- The line of a start is not active one byte earlier. -/
theorem lineAt_ne_of_mem {starts : List LineStart}
    (hascending : starts.Pairwise (·.offset < ·.offset))
    (hchanging : starts.IsChain (·.line ≠ ·.line)) {start : LineStart} (h : start ∈ starts)
    {byte : Nat} (hbyte : byte + 1 = start.offset) : lineAt starts byte ≠ some start.line := by
  induction starts with
  | nil => cases h
  | cons first rest ih =>
    obtain ⟨hfirst, hrest⟩ := List.pairwise_cons.mp hascending
    rw [lineAt_cons]
    rcases List.mem_cons.mp h with rfl | h
    · have hnone : lineAt rest byte = none := lineAt_eq_none fun other hother => by
        have := hfirst other hother
        omega
      rw [if_neg (by omega), hnone]
      exact fun hsame => by cases hsame
    · have hlt : first.offset < start.offset := hfirst start h
      have hearlier := ih hrest hchanging.tail h
      rw [if_pos (by omega)]
      cases hline : lineAt rest byte with
      | some line =>
        rw [hline] at hearlier
        exact hearlier
      | none =>
        -- Nothing of `rest` starts earlier, so that `start` follows `first` directly.
        have hnone := lineAt_eq_none_iff.mp hline
        cases rest with
        | nil => cases h
        | cons second others =>
          obtain ⟨hne, -⟩ := List.isChain_cons_cons.mp hchanging
          have hsecond : second = start := by
            rcases List.mem_cons.mp h with rfl | h
            · rfl
            · have := (List.pairwise_cons.mp hrest).1 start h
              have := hnone second List.mem_cons_self
              omega
          rw [hsecond] at hne
          exact fun hsame => hne (Option.some.inj hsame)

/-- A line that becomes active at a byte starts there. -/
theorem mem_of_lineAt {starts : List LineStart}
    (hascending : starts.Pairwise (·.offset < ·.offset)) {start : LineStart}
    (hhere : lineAt starts start.offset = some start.line)
    (hearlier : ∀ byte, byte + 1 = start.offset → lineAt starts byte ≠ some start.line) :
    start ∈ starts := by
  induction starts with
  | nil => cases hhere
  | cons first rest ih =>
    obtain ⟨-, hrest⟩ := List.pairwise_cons.mp hascending
    rw [lineAt_cons] at hhere
    cases hline : lineAt rest start.offset with
    | some line =>
      have hsame : some line = some start.line := by
        rw [hline] at hhere
        split at hhere
        · exact hhere
        · exact hhere
      refine List.mem_cons_of_mem _ (ih hrest (hline.trans hsame) fun byte hbyte hactive => ?_)
      refine hearlier byte hbyte ?_
      rw [lineAt_cons, hactive]
      split
      · rfl
      · rfl
    | none =>
      rw [hline] at hhere
      by_cases hle : first.offset ≤ start.offset
      · rw [if_pos hle, Option.none_or, Option.some.injEq] at hhere
        have hat : first.offset = start.offset := by
          by_contra hne
          have hnone : lineAt rest (start.offset - 1) = none :=
            lineAt_eq_none fun other hother => by
              have := lineAt_eq_none_iff.mp hline other hother
              omega
          refine hearlier (start.offset - 1) (by omega) ?_
          rw [lineAt_cons, if_pos (by omega), hnone, hhere]
          rfl
        have hsame : start = first := by
          cases start
          cases first
          rw [LineStart.mk.injEq]
          exact ⟨hat.symm, hhere.symm⟩
        rw [hsame]
        exact List.mem_cons_self
      · rw [if_neg hle] at hhere
        cases hhere

theorem Normal.subset_of_lineAt {starts others : List LineStart} (h : Normal starts)
    (hothers : Normal others) (hlines : ∀ byte, lineAt starts byte = lineAt others byte) :
    starts ⊆ others := by
  intro start hstart
  refine mem_of_lineAt hothers.ascending ?_ fun byte hbyte => ?_
  · rw [← hlines]
    exact lineAt_of_mem h.ascending hstart
  · rw [← hlines]
    exact lineAt_ne_of_mem h.ascending h.changing hstart hbyte

/-- The lines that are active determine starts in normal form. -/
theorem Normal.eq_of_lineAt {starts others : List LineStart} (h : Normal starts)
    (hothers : Normal others) (hlines : ∀ byte, lineAt starts byte = lineAt others byte) :
    starts = others :=
  eq_of_ascending h.ascending hothers.ascending (h.subset_of_lineAt hothers hlines)
    (hothers.subset_of_lineAt h fun byte => (hlines byte).symm)

/-! ### How far a table reaches -/

/-- The bytes that the pairs of a table advance by. -/
def reach : List UInt8 → Nat
  | advance :: _ :: rest => advance.toNat + reach rest
  | _ => 0

theorem reach_bytes (steps : List Step) :
    reach (steps.flatMap Step.bytes) = (steps.map (·.advance.toNat)).sum := by
  induction steps with
  | nil => rfl
  | cons step steps ih =>
    rw [List.flatMap_cons, List.map_cons, List.sum_cons, ← ih]
    rfl

theorem sum_withAdvance (advance : UInt8) {moves : List Int8} (hmoves : moves ≠ []) :
    ((withAdvance advance moves).map (·.advance.toNat)).sum = advance.toNat := by
  cases moves with
  | nil => exact absurd rfl hmoves
  | cons move rest => simp [withAdvance, Function.comp_def]

theorem sum_stepsFor (bytes : Nat) (delta : Int) :
    ((stepsFor bytes delta).map (·.advance.toNat)).sum = bytes := by
  rw [stepsFor]
  by_cases hnone : bytes = 0 ∧ delta = 0
  · rw [if_pos hnone, hnone.1]
    rfl
  · have hlast : (UInt8.ofNat (bytes - 255 * ((bytes - 1) / 255))).toNat =
        bytes - 255 * ((bytes - 1) / 255) := by
      rw [UInt8.toNat_ofNat']
      omega
    rw [if_neg hnone, List.map_append, List.sum_append, sum_withAdvance _ (moves_ne_nil delta),
      hlast, List.map_replicate, List.sum_replicate]
    show (bytes - 1) / 255 * 255 + _ = bytes
    omega

/-- The advances between starts add up to the distance of the last one. -/
theorem sum_stepsFrom (starts : List LineStart) : ∀ previous : LineStart,
    (previous :: starts).Pairwise (·.offset ≤ ·.offset) →
      previous.offset + ((stepsFrom previous starts).map (·.advance.toNat)).sum =
        ((previous :: starts).getLast (List.cons_ne_nil _ _)).offset := by
  induction starts with
  | nil =>
    intro previous _
    rfl
  | cons start rest ih =>
    intro previous hsorted
    obtain ⟨hfirst, hsorted⟩ := List.pairwise_cons.mp hsorted
    have hle : previous.offset ≤ start.offset := hfirst start List.mem_cons_self
    have hrest := ih start hsorted
    rw [stepsFrom_cons, List.map_append, List.sum_append, sum_stepsFor, List.getLast_cons_cons,
      ← hrest]
    omega

/-- A written table reaches as far as its last start. -/
theorem reach_encode (firstLine : UInt32) {first : LineStart} {rest : List LineStart}
    (hsorted : (first :: rest).Pairwise (·.offset ≤ ·.offset)) :
    reach (encode firstLine (first :: rest)).2 =
      ((first :: rest).getLast (List.cons_ne_nil _ _)).offset := by
  have hpending : (({ offset := 0, line := first.line } : LineStart) :: first :: rest).Pairwise
      (·.offset ≤ ·.offset) :=
    List.pairwise_cons.mpr ⟨fun start _ => Nat.zero_le _, hsorted⟩
  have hsum := sum_stepsFrom (first :: rest) { offset := 0, line := first.line } hpending
  rw [List.getLast_cons_cons, Nat.zero_add] at hsum
  rw [encode, reach_bytes, hsum]

/-! ### Writing and reading back -/

/-- Starts that are written and read back come out in normal form, with the line of every byte as
it was.  The line of the first start is active from the first byte on.  No offset on the way
exceeds that of the last start. -/
theorem decode_encode_normal (firstLine : UInt32) {first : LineStart} {rest : List LineStart}
    (hsorted : (first :: rest).Pairwise (·.offset ≤ ·.offset)) :
    ∃ starts, decode (encode firstLine (first :: rest)).1 (encode firstLine (first :: rest)).2 =
        .ok starts ∧
      Normal starts ∧
      (∀ byte, lineAt starts byte = some ((lineAt (first :: rest) byte).getD first.line)) ∧
      (Normal (first :: rest) → starts = first :: rest) ∧
      reach (encode firstLine (first :: rest)).2 =
        ((first :: rest).getLast (List.cons_ne_nil _ _)).offset := by
  have hpending : (({ offset := 0, line := first.line } : LineStart) :: first :: rest).Pairwise
      (·.offset ≤ ·.offset) :=
    List.pairwise_cons.mpr ⟨fun start _ => Nat.zero_le _, hsorted⟩
  have hdecode := decode_encode firstLine hsorted
  have hnormal := normal_of_decode hdecode
  have hlines : ∀ byte,
      lineAt (normalFrom none { offset := 0, line := first.line } (first :: rest)) byte =
        some ((lineAt (first :: rest) byte).getD first.line) := by
    intro byte
    have hactive := @lineAt_normalFrom (first :: rest) byte none _ hpending (Nat.zero_le _)
    rw [Option.or_none] at hactive
    rw [hactive]
    cases lineAt (first :: rest) byte <;> rfl
  refine ⟨_, hdecode, hnormal, hlines, fun hself => ?_, reach_encode firstLine hsorted⟩
  refine hnormal.eq_of_lineAt hself fun byte => ?_
  have hzero : first.offset = 0 := by simpa using hself.first
  rw [hlines, lineAt_cons, if_pos (by omega)]
  cases lineAt rest byte <;> rfl

/-- Starts with two lines at one byte, a line that starts again, and distances and moves that take
several pairs. -/
def jumbled : List LineStart :=
  [{ offset := 3, line := 7 }, { offset := 8, line := 90000 }, { offset := 8, line := 400 },
   { offset := 600, line := 400 }, { offset := 1000, line := 2 }]

example : decode (encode 1 jumbled).1 (encode 1 jumbled).2 =
    .ok [{ offset := 0, line := 7 }, { offset := 8, line := 400 }, { offset := 1000, line := 2 }] :=
  by decide +kernel

theorem jumbled_normal :
    jumbled.Pairwise (·.offset ≤ ·.offset) ∧
      ∃ starts, decode (encode 1 jumbled).1 (encode 1 jumbled).2 = .ok starts ∧ Normal starts ∧
        (∀ byte, lineAt starts byte = some ((lineAt jumbled byte).getD 7)) ∧
        (Normal jumbled → starts = jumbled) ∧ reach (encode 1 jumbled).2 = 1000 :=
  ⟨by decide, decode_encode_normal 1 (by decide)⟩

end LineTable
end StackCode
