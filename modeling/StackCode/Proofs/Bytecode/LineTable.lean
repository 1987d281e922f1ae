import StackCode.Bytecode.LineTable
import StackCode.Proofs.Outcome
import Mathlib.Algebra.BigOperators.Group.List.Basic
import Mathlib.Data.List.Chain
import Mathlib.Tactic.Ring

/-!
The line table codec.  Reading a table back gives the line starts it was written from in normal
form: `Normal` lists begin at offset 0, and each of their starts moves on to another line.

Which line is active at a byte is `lineAt`, and the codec keeps it at every byte.
-/

namespace StackCode
namespace LineTable

open Outcome

/-- The line that is active at `byte`: that of the last start at or before it. -/
def lineAt (starts : List LineStart) (byte : Nat) : Option UInt32 :=
  (starts.filter (·.offset ≤ byte)).getLast?.map (·.line)

/-- The starts from `pending` on in normal form, behind a start of line `last`. -/
def normalFrom (last : Option UInt32) (pending : LineStart) : List LineStart → List LineStart
  | [] => if last = some pending.line then [] else [pending]
  | start :: rest =>
    if start.offset = pending.offset then normalFrom last start rest
    else if last = some pending.line then normalFrom last start rest
    else pending :: normalFrom (some pending.line) start rest

/-- Starts that a table can give: the first is at offset 0, and each one begins another line
further on. -/
structure Normal (starts : List LineStart) : Prop where
  first : starts.head?.map (·.offset) = some 0
  ascending : starts.Pairwise (·.offset < ·.offset)
  changing : starts.IsChain (·.line ≠ ·.line)

theorem Normal.exists_cons {starts : List LineStart} (h : Normal starts) :
    ∃ line rest, starts = { offset := 0, line } :: rest := by
  obtain ⟨start, hstart, hzero⟩ := Option.map_eq_some_iff.mp h.first
  obtain ⟨rest, rfl⟩ := List.head?_eq_some_iff.mp hstart
  exact ⟨start.line, rest, by rw [← hzero]⟩

/-! ### Moves -/

theorem sum_replicate_append (count : Nat) (whole rest : Int8) :
    ((List.replicate count whole ++ [rest]).map Int8.toInt).sum =
      count * whole.toInt + rest.toInt := by
  simp [List.sum_replicate]

theorem sum_moves (delta : Int) : ((moves delta).map Int8.toInt).sum = delta := by
  have hword : ∀ value : Int, -128 ≤ value → value ≤ 127 → (Int8.ofInt value).toInt = value := by
    intro value hlow hhigh
    exact Int8.toInt_ofInt_of_le (by omega) (by omega)
  unfold moves
  split
  · have hmost : (127 : Int8).toInt = 127 := rfl
    rw [sum_replicate_append, hword _ (by omega) (by omega), hmost]
    omega
  · split
    · have hleast : (-128 : Int8).toInt = -128 := rfl
      rw [sum_replicate_append, hword _ (by omega) (by omega), hleast]
      omega
    · simp [hword delta (by omega) (by omega)]

theorem moves_ne_nil (delta : Int) : moves delta ≠ [] := by
  unfold moves
  split
  · simp
  · split <;> simp

/-! ### Reading -/

/-- A reader that went on without starting a line. -/
def Reader.moved (reader : Reader) (bytes : Nat) (delta : Int) : Reader :=
  { reader with offset := reader.offset + bytes, line := reader.line + delta }

theorem Reader.moved_moved (reader : Reader) (bytes bytes' : Nat) (delta delta' : Int) :
    (reader.moved bytes delta).moved bytes' delta' =
      reader.moved (bytes + bytes') (delta + delta') := by
  simp [moved, Nat.add_assoc, Int.add_assoc]

theorem Reader.moved_zero (reader : Reader) : reader.moved 0 0 = reader := by
  simp [moved]

/-- A start adds the line of the reader, unless that line is active already.  What is added is a
word. -/
theorem Reader.start_cases {reader started : Reader} (h : reader.start = .ok started) :
    (reader.last = some reader.line ∧ started = reader) ∨
      ∃ line : UInt32, (line.toNat : Int) = reader.line ∧ reader.last ≠ some reader.line ∧
        started = { reader with
          last := some reader.line
          starts := { offset := reader.offset, line } :: reader.starts } := by
  unfold start at h
  split at h
  · rename_i hlast
    cases h
    exact .inl ⟨hlast, rfl⟩
  · rename_i hother
    split at h
    · rename_i hword
      cases h
      have hline : ((UInt32.ofNat reader.line.toNat).toNat : Int) = reader.line := by
        rw [UInt32.toNat_ofNat']
        omega
      exact .inr ⟨_, hline, hother, rfl⟩
    · cases h

/-- A started line is the last one. -/
theorem Reader.start_eq_ok {reader started : Reader} (h : reader.start = .ok started) :
    started.last = some started.line ∧ started.line = reader.line ∧
      started.offset = reader.offset := by
  rcases Reader.start_cases h with ⟨hlast, rfl⟩ | ⟨line, -, -, rfl⟩
  · exact ⟨hlast, rfl, rfl⟩
  · exact ⟨rfl, rfl, rfl⟩

theorem Reader.start_of_last {reader : Reader} (h : reader.last = some reader.line) :
    reader.start = .ok reader := by
  rw [start, if_pos h]

theorem Reader.step_zero (reader : Reader) (move : Int8) :
    reader.step { advance := 0, move } = .ok (reader.moved 0 move.toInt) := rfl

theorem Reader.step_pos {reader : Reader} {step : Step} (h : step.advance ≠ 0) :
    reader.step step =
      reader.start.map fun started => started.moved step.advance.toNat step.move.toInt := by
  rw [Reader.step, if_neg h]
  cases reader.start <;> rfl

/-- A step that is taken only moves, or starts the line and leaves it. -/
theorem Reader.step_cases {reader next : Reader} {step : Step} (h : reader.step step = .ok next) :
    (step.advance = 0 ∧ next = reader.moved 0 step.move.toInt) ∨
      ∃ started, step.advance ≠ 0 ∧ reader.start = .ok started ∧
        next = started.moved step.advance.toNat step.move.toInt := by
  by_cases hadvance : step.advance = 0
  · obtain ⟨advance, move⟩ := step
    simp only at hadvance
    subst hadvance
    rw [Reader.step_zero] at h
    cases h
    exact .inl ⟨rfl, rfl⟩
  · rw [Reader.step_pos hadvance] at h
    obtain ⟨started, hstart, rfl⟩ := map_eq_ok.mp h
    exact .inr ⟨started, hadvance, hstart, rfl⟩

/-- Moves without advance add up. -/
theorem foldlM_moves (rest : List Int8) (reader : Reader) :
    (rest.map fun move => ({ advance := 0, move } : Step)).foldlM Reader.step reader =
      .ok (reader.moved 0 (rest.map Int8.toInt).sum) := by
  induction rest generalizing reader with
  | nil => rw [List.map_nil, List.map_nil, List.sum_nil, Reader.moved_zero]; rfl
  | cons move rest ih =>
    rw [List.map_cons, List.foldlM_cons, Reader.step_zero, List.map_cons, List.sum_cons]
    show List.foldlM Reader.step (reader.moved 0 move.toInt) _ = _
    rw [ih, Reader.moved_moved]

theorem foldlM_withAdvance {moves : List Int8} (hmoves : moves ≠ []) {advance : UInt8}
    (hadvance : advance ≠ 0) (reader : Reader) :
    (withAdvance advance moves).foldlM Reader.step reader =
      reader.start.map fun started =>
        started.moved advance.toNat (moves.map Int8.toInt).sum := by
  cases moves with
  | nil => exact absurd rfl hmoves
  | cons move rest =>
    rw [withAdvance, List.foldlM_cons, Reader.step_pos hadvance]
    cases reader.start with
    | error error => rfl
    | ok started =>
      show List.foldlM Reader.step (started.moved advance.toNat move.toInt) _ = _
      rw [foldlM_moves, Reader.moved_moved, List.map_cons, List.sum_cons]
      rfl

/-- Whole advances start the line they leave, once. -/
theorem foldlM_whole (count : Nat) (reader : Reader) :
    (List.replicate (count + 1) ({ advance := 255, move := 0 } : Step)).foldlM Reader.step reader =
      reader.start.map fun started => started.moved (255 * (count + 1)) 0 := by
  induction count generalizing reader with
  | zero =>
    rw [List.replicate_succ, List.foldlM_cons, Reader.step_pos (by decide)]
    cases reader.start <;> rfl
  | succ count ih =>
    rw [List.replicate_succ, List.foldlM_cons, Reader.step_pos (by decide)]
    cases hstart : reader.start with
    | error error => rfl
    | ok started =>
      show List.foldlM Reader.step (started.moved 255 0) _ = _
      have hlast := (Reader.start_eq_ok hstart).1
      rw [ih, Reader.start_of_last (by simpa [Reader.moved] using hlast)]
      have harith : 255 + 255 * (count + 1) = 255 * (count + 1 + 1) := by omega
      simp only [Except.map, Reader.moved_moved, harith, Int.add_zero]

/-- The pairs between two line starts move a reader from one to the other.  The line it leaves is
started unless both are at one offset. -/
theorem foldlM_stepsFor (bytes : Nat) (delta : Int) (reader : Reader) :
    (stepsFor bytes delta).foldlM Reader.step reader =
      if bytes = 0 then .ok (reader.moved 0 delta)
      else reader.start.map fun started => started.moved bytes delta := by
  rw [stepsFor]
  by_cases hnone : bytes = 0 ∧ delta = 0
  · rw [if_pos hnone, if_pos hnone.1, hnone.2, Reader.moved_zero]
    rfl
  · rw [if_neg hnone, List.foldlM_append]
    by_cases hbytes : bytes = 0
    · subst hbytes
      show List.foldlM Reader.step reader (withAdvance 0 (moves delta)) = _
      have hzero : withAdvance 0 (moves delta) = (moves delta).map fun move =>
          ({ advance := 0, move } : Step) := by
        cases moves delta <;> rfl
      rw [hzero, foldlM_moves, sum_moves, if_pos rfl]
    · rw [if_neg hbytes]
      have hrest : (UInt8.ofNat (bytes - 255 * ((bytes - 1) / 255))).toNat =
          bytes - 255 * ((bytes - 1) / 255) := by
        rw [UInt8.toNat_ofNat']
        omega
      have hadvance : UInt8.ofNat (bytes - 255 * ((bytes - 1) / 255)) ≠ 0 := by
        intro h
        rw [h] at hrest
        have : (0 : UInt8).toNat = 0 := rfl
        omega
      cases hwhole : (bytes - 1) / 255 with
      | zero =>
        rw [hwhole] at hrest hadvance
        show List.foldlM Reader.step reader _ = _
        rw [foldlM_withAdvance (moves_ne_nil delta) hadvance, sum_moves, hrest]
        simp
      | succ count =>
        rw [hwhole] at hrest hadvance
        rw [foldlM_whole]
        cases hstart : reader.start with
        | error error => rfl
        | ok started =>
          show List.foldlM Reader.step (started.moved (255 * (count + 1)) 0) _ = _
          have hlast := (Reader.start_eq_ok hstart).1
          rw [foldlM_withAdvance (moves_ne_nil delta) hadvance, sum_moves, hrest,
            Reader.start_of_last (by simpa [Reader.moved] using hlast)]
          have harith : 255 * (count + 1) + (bytes - 255 * (count + 1)) = bytes := by omega
          simp only [Except.map, Reader.moved_moved, harith, Int.zero_add]

/-- The bytes of steps read as these steps. -/
theorem readSteps_bytes (steps : List Step) (reader : Reader) :
    readSteps reader (steps.flatMap Step.bytes) = steps.foldlM Reader.step reader := by
  induction steps generalizing reader with
  | nil => rfl
  | cons step steps ih =>
    rw [List.flatMap_cons, Step.bytes, List.cons_append, List.cons_append, List.nil_append,
      readSteps, Int8.toInt8_toUInt8, List.foldlM_cons]
    cases Reader.step reader step with
    | error error => rfl
    | ok next => exact ih next

theorem length_bytes (steps : List Step) :
    (steps.flatMap Step.bytes).length = 2 * steps.length := by
  induction steps with
  | nil => rfl
  | cons step steps ih =>
    rw [List.flatMap_cons, List.length_append, ih, List.length_cons, Step.bytes]
    simp only [List.length_cons, List.length_nil]
    omega

/-! ### Writing and reading back -/

/-- A reader that stands at `pending`, behind a start of line `last`. -/
def Reader.At (reader : Reader) (last : Option UInt32) (pending : LineStart) : Prop :=
  reader.offset = pending.offset ∧ reader.line = pending.line.toNat ∧
    reader.last = last.map fun line => (line.toNat : Int)

theorem Reader.last_eq_line_iff {reader : Reader} {last : Option UInt32} {pending : LineStart}
    (h : reader.At last pending) : reader.last = some reader.line ↔ last = some pending.line := by
  obtain ⟨-, hline, hlast⟩ := h
  rw [hlast, hline]
  cases last with
  | none => simp
  | some line =>
    rw [Option.map_some, Option.some.injEq, Option.some.injEq, Int.natCast_inj, UInt32.toNat_inj]

/-- Lines of starts are words, so that a reader that stands at one can always start it. -/
theorem Reader.At.start {reader : Reader} {last : Option UInt32} {pending : LineStart}
    (h : reader.At last pending) :
    ∃ started, reader.start = .ok started ∧ started.At (some pending.line) pending ∧
      started.starts =
        if last = some pending.line then reader.starts else pending :: reader.starts := by
  by_cases hlast : last = some pending.line
  · refine ⟨reader, Reader.start_of_last ((Reader.last_eq_line_iff h).mpr hlast), ?_, ?_⟩
    · obtain ⟨hoffset, hline, hreader⟩ := h
      exact ⟨hoffset, hline, by rw [hreader, hlast]⟩
    · rw [if_pos hlast]
  · have hne : ¬reader.last = some reader.line := fun e =>
      hlast ((Reader.last_eq_line_iff h).mp e)
    obtain ⟨hoffset, hline, hreader⟩ := h
    have hword : 0 ≤ reader.line ∧ reader.line < 0x100000000 := by
      have := pending.line.toNat_lt
      omega
    rw [Reader.start, if_neg hne, if_pos hword, if_neg hlast]
    refine ⟨_, rfl, ⟨hoffset, hline, ?_⟩, ?_⟩
    · rw [hline]
      rfl
    · simp only [hline, hoffset, Int.toNat_natCast, UInt32.ofNat_toNat]

theorem Reader.At.moved {reader : Reader} {last : Option UInt32} {pending start : LineStart}
    (h : reader.At last pending) (hle : pending.offset ≤ start.offset) :
    (reader.moved (start.offset - pending.offset)
      ((start.line.toNat : Int) - (pending.line.toNat : Int))).At last start := by
  obtain ⟨hoffset, hline, hlast⟩ := h
  refine ⟨?_, ?_, hlast⟩
  · simp only [Reader.moved]
    omega
  · simp only [Reader.moved]
    omega

theorem stepsFrom_cons (previous start : LineStart) (rest : List LineStart) :
    stepsFrom previous (start :: rest) =
      stepsFor (start.offset - previous.offset)
        ((start.line.toNat : Int) - (previous.line.toNat : Int)) ++ stepsFrom start rest := rfl

/-- Reading the pairs behind `pending` adds the normal form of the starts from there on. -/
theorem foldlM_stepsFrom (starts : List LineStart) :
    ∀ (pending : LineStart) (last : Option UInt32) (reader : Reader),
      reader.At last pending → (pending :: starts).Pairwise (·.offset ≤ ·.offset) →
      ∃ final started, (stepsFrom pending starts).foldlM Reader.step reader = .ok final ∧
        final.start = .ok started ∧
        started.starts = (normalFrom last pending starts).reverse ++ reader.starts := by
  induction starts with
  | nil =>
    intro pending last reader hreader _
    obtain ⟨started, hstart, -, hstarts⟩ := hreader.start
    refine ⟨reader, started, rfl, hstart, ?_⟩
    rw [hstarts, normalFrom]
    split <;> rfl
  | cons start rest ih =>
    intro pending last reader hreader hsorted
    obtain ⟨hfirst, hsorted⟩ := List.pairwise_cons.mp hsorted
    have hle : pending.offset ≤ start.offset := hfirst start List.mem_cons_self
    rw [stepsFrom_cons, List.foldlM_append, foldlM_stepsFor]
    by_cases hsame : start.offset = pending.offset
    · have hzero : start.offset - pending.offset = 0 := by omega
      have hmoved := hreader.moved hle
      rw [hzero] at hmoved
      rw [hzero, if_pos rfl, normalFrom, if_pos hsame]
      exact ih start last _ hmoved hsorted
    · have hpos : start.offset - pending.offset ≠ 0 := by omega
      obtain ⟨started, hstart, hat, hstarts⟩ := hreader.start
      rw [if_neg hpos, hstart, normalFrom, if_neg hsame]
      obtain ⟨final, ended, hfold, hend, hall⟩ := ih start _ _ (hat.moved hle) hsorted
      refine ⟨final, ended, hfold, hend, ?_⟩
      have hkept : started.starts = (started.moved (start.offset - pending.offset)
          ((start.line.toNat : Int) - (pending.line.toNat : Int))).starts := rfl
      rw [hall, ← hkept, hstarts]
      by_cases hlast : last = some pending.line
      · rw [if_pos hlast, if_pos hlast, hlast]
      · rw [if_neg hlast, if_neg hlast, List.reverse_cons, List.append_assoc]
        rfl

/-- A reader at the front of a table. -/
def Reader.first (line : UInt32) : Reader :=
  { offset := 0, line := line.toNat, last := none, starts := [] }

theorem decode_eq_ok {firstLine : UInt32} {table : List UInt8} {starts : List LineStart} :
    decode firstLine table = .ok starts ↔
      table.length % 2 = 0 ∧ ∃ final started, readSteps (Reader.first firstLine) table = .ok final ∧
        final.start = .ok started ∧ starts = started.starts.reverse := by
  rw [decode]
  by_cases hodd : table.length % 2 = 1
  · rw [if_pos hodd]
    constructor
    · intro h
      cases h
    · rintro ⟨heven, -⟩
      omega
  · rw [if_neg hodd]
    have heven : table.length % 2 = 0 := by omega
    simp only [bind_eq_ok, pure_eq_ok]
    constructor
    · rintro ⟨final, hfinal, started, hstarted, h⟩
      exact ⟨heven, final, started, hfinal, hstarted, h.symm⟩
    · rintro ⟨-, final, started, hfinal, hstarted, h⟩
      exact ⟨final, hfinal, started, hstarted, h.symm⟩

/-- A written table is read back as the normal form of the starts it was written from. -/
theorem decode_encode (firstLine : UInt32) {first : LineStart} {rest : List LineStart}
    (hsorted : (first :: rest).Pairwise (·.offset ≤ ·.offset)) :
    decode (encode firstLine (first :: rest)).1 (encode firstLine (first :: rest)).2 =
      .ok (normalFrom none { offset := 0, line := first.line } (first :: rest)) := by
  have hpending : (({ offset := 0, line := first.line } : LineStart) :: first :: rest).Pairwise
      (·.offset ≤ ·.offset) :=
    List.pairwise_cons.mpr ⟨fun start _ => Nat.zero_le _, hsorted⟩
  obtain ⟨final, started, hfold, hstart, hstarts⟩ :=
    foldlM_stepsFrom (first :: rest) { offset := 0, line := first.line } none
      (Reader.first first.line) ⟨rfl, rfl, rfl⟩ hpending
  refine decode_eq_ok.mpr ⟨?_, final, started, ?_, hstart, ?_⟩
  · rw [encode, length_bytes]
    omega
  · rw [encode, readSteps_bytes]
    exact hfold
  · rw [hstarts]
    simp [Reader.first]

/-- Without starts the default line is active throughout. -/
theorem decode_encode_nil (firstLine : UInt32) :
    decode (encode firstLine []).1 (encode firstLine []).2 =
      .ok [{ offset := 0, line := firstLine }] := by
  have hfront : (Reader.first firstLine).At none { offset := 0, line := firstLine } :=
    ⟨rfl, rfl, rfl⟩
  obtain ⟨started, hstart, -, hstarts⟩ := hfront.start
  refine decode_eq_ok.mpr ⟨rfl, Reader.first firstLine, started, rfl, hstart, ?_⟩
  rw [hstarts]
  rfl

/-! ### Active lines -/

theorem lineAt_cons (start : LineStart) (rest : List LineStart) (byte : Nat) :
    lineAt (start :: rest) byte =
      if start.offset ≤ byte then (lineAt rest byte).or (some start.line)
      else lineAt rest byte := by
  rw [lineAt, lineAt, List.filter_cons]
  by_cases hle : start.offset ≤ byte
  · rw [if_pos (by simpa using hle), if_pos hle, List.getLast?_cons]
    cases (rest.filter (·.offset ≤ byte)).getLast? <;> rfl
  · rw [if_neg (by simpa using hle), if_neg hle]

/-- No line is active in front of the first start. -/
theorem lineAt_eq_none {starts : List LineStart} {byte : Nat}
    (h : ∀ start ∈ starts, byte < start.offset) : lineAt starts byte = none := by
  have hnone : starts.filter (·.offset ≤ byte) = [] := by
    rw [List.filter_eq_nil_iff]
    intro start hstart
    simpa using h start hstart
  rw [lineAt, hnone]
  rfl

theorem offset_le_of_mem_normalFrom {starts : List LineStart} :
    ∀ {last : Option UInt32} {pending : LineStart},
      (pending :: starts).Pairwise (·.offset ≤ ·.offset) →
      ∀ start ∈ normalFrom last pending starts, pending.offset ≤ start.offset := by
  induction starts with
  | nil =>
    intro last pending _ start hstart
    rw [normalFrom] at hstart
    split at hstart
    · cases hstart
    · rw [List.mem_singleton.mp hstart]
  | cons next rest ih =>
    intro last pending hsorted start hstart
    obtain ⟨hfirst, hsorted⟩ := List.pairwise_cons.mp hsorted
    have hle := hfirst next List.mem_cons_self
    rw [normalFrom] at hstart
    split at hstart
    · exact Nat.le_trans hle (ih hsorted start hstart)
    · split at hstart
      · exact Nat.le_trans hle (ih hsorted start hstart)
      · rcases List.mem_cons.mp hstart with rfl | hstart
        · exact Nat.le_refl _
        · exact Nat.le_trans hle (ih hsorted start hstart)

/-- The normal form keeps the line of every byte, where `last` is active up to `pending`. -/
theorem lineAt_normalFrom {starts : List LineStart} (byte : Nat) :
    ∀ {last : Option UInt32} {pending : LineStart},
      (pending :: starts).Pairwise (·.offset ≤ ·.offset) → pending.offset ≤ byte →
      (lineAt (normalFrom last pending starts) byte).or last =
        (lineAt starts byte).or (some pending.line) := by
  induction starts with
  | nil =>
    intro last pending _ hbyte
    rw [normalFrom]
    by_cases hlast : last = some pending.line
    · rw [if_pos hlast, hlast]
    · rw [if_neg hlast, lineAt_cons, if_pos hbyte]
      rfl
  | cons next rest ih =>
    intro last pending hsorted hbyte
    obtain ⟨hfirst, hsorted⟩ := List.pairwise_cons.mp hsorted
    rw [normalFrom, lineAt_cons]
    by_cases hsame : next.offset = pending.offset
    · have hnext : next.offset ≤ byte := by omega
      rw [if_pos hsame, if_pos hnext, ih hsorted hnext]
      cases lineAt rest byte <;> rfl
    · rw [if_neg hsame]
      by_cases hnext : next.offset ≤ byte
      · rw [if_pos hnext]
        have hrest : (lineAt (normalFrom (some pending.line) next rest) byte).or
            (some pending.line) = (lineAt rest byte).or (some next.line) := ih hsorted hnext
        split
        · rename_i hlast
          rw [hlast, hrest]
          cases lineAt rest byte <;> rfl
        · rw [lineAt_cons, if_pos hbyte, hrest]
          cases lineAt rest byte <;> rfl
      · have hrest : lineAt rest byte = none := by
          refine lineAt_eq_none fun start hstart => ?_
          have := (List.pairwise_cons.mp hsorted).1 start hstart
          omega
        have hnormal : ∀ last, lineAt (normalFrom last next rest) byte = none := by
          intro last
          refine lineAt_eq_none fun start hstart => ?_
          have := offset_le_of_mem_normalFrom hsorted start hstart
          omega
        rw [if_neg hnext, hrest]
        split
        · rename_i hlast
          rw [hnormal, hlast]
        · rw [lineAt_cons, if_pos hbyte, hnormal]
          rfl

/-! ### Normal forms -/

theorem mem_normalFrom {starts : List LineStart} {start : LineStart} :
    ∀ {last : Option UInt32} {pending : LineStart}, start ∈ normalFrom last pending starts →
      start = pending ∨ start ∈ starts := by
  induction starts with
  | nil =>
    intro last pending h
    rw [normalFrom] at h
    split at h
    · cases h
    · exact .inl (List.mem_singleton.mp h)
  | cons next rest ih =>
    intro last pending h
    have hrest : ∀ last, start ∈ normalFrom last next rest → start ∈ next :: rest := by
      intro last h
      rcases ih h with rfl | h
      · exact List.mem_cons_self
      · exact List.mem_cons_of_mem next h
    rw [normalFrom] at h
    split at h
    · exact .inr (hrest _ h)
    · split at h
      · exact .inr (hrest _ h)
      · rcases List.mem_cons.mp h with rfl | h
        · exact .inl rfl
        · exact .inr (hrest _ h)

/-- Ascending starts that change the line are their own normal form. -/
theorem normalFrom_of_ascending {rest : List LineStart} :
    ∀ {last : Option UInt32} {first : LineStart}, last ≠ some first.line →
      (first :: rest).Pairwise (·.offset < ·.offset) → (first :: rest).IsChain (·.line ≠ ·.line) →
      normalFrom last first rest = first :: rest := by
  induction rest with
  | nil =>
    intro last first hlast _ _
    rw [normalFrom, if_neg hlast]
  | cons second rest ih =>
    intro last first hlast hascending hchanging
    obtain ⟨hfirst, hascending⟩ := List.pairwise_cons.mp hascending
    have hlt := hfirst second List.mem_cons_self
    obtain ⟨hline, hchanging⟩ := List.isChain_cons_cons.mp hchanging
    rw [normalFrom, if_neg (by omega), if_neg hlast]
    rw [ih (fun e => hline (Option.some.inj e)) hascending hchanging]

/-- The starts that a table written from `starts` gives. -/
def written (firstLine : UInt32) : List LineStart → List LineStart
  | [] => [{ offset := 0, line := firstLine }]
  | first :: rest => normalFrom none { offset := 0, line := first.line } (first :: rest)

theorem decode_written (firstLine : UInt32) {starts : List LineStart}
    (hsorted : starts.Pairwise (·.offset ≤ ·.offset)) :
    decode (encode firstLine starts).1 (encode firstLine starts).2 =
      .ok (written firstLine starts) := by
  cases starts with
  | nil => exact decode_encode_nil firstLine
  | cons first rest => exact decode_encode firstLine hsorted

/-- A table has no starts but those it was written from and the one at offset 0. -/
theorem mem_written {firstLine : UInt32} {starts : List LineStart} {start : LineStart}
    (h : start ∈ written firstLine starts) : start.offset = 0 ∨ start ∈ starts := by
  cases starts with
  | nil => exact .inl (by rw [List.mem_singleton.mp h])
  | cons first rest =>
    rcases mem_normalFrom h with rfl | h
    · exact .inl rfl
    · exact .inr h

/-- What was read from a table is written with the same first line. -/
theorem encode_written_fst (firstLine : UInt32) {starts : List LineStart}
    (hascending : starts.Pairwise (·.offset < ·.offset)) :
    (encode firstLine (written firstLine starts)).1 = (encode firstLine starts).1 := by
  cases starts with
  | nil => rfl
  | cons first rest =>
    obtain ⟨hfirst, -⟩ := List.pairwise_cons.mp hascending
    rw [written, normalFrom]
    split
    · cases rest with
      | nil => rfl
      | cons second rest =>
        have := hfirst second List.mem_cons_self
        rw [normalFrom, if_neg (by omega), if_neg (by simp)]
        rfl
    · rw [if_neg (by simp)]
      rfl

/-- Writing starts and reading them keeps the active lines, and the line of the first start is
active in front of it. -/
theorem lineAt_written (firstLine : UInt32) {starts : List LineStart} (byte : Nat)
    (hsorted : starts.Pairwise (·.offset ≤ ·.offset)) :
    lineAt (written firstLine starts) byte =
      some (((lineAt starts byte).or (starts.head?.map (·.line))).getD firstLine) := by
  cases starts with
  | nil =>
    rw [written, lineAt_cons, if_pos (Nat.zero_le _)]
    rfl
  | cons first rest =>
    have hpending : (({ offset := 0, line := first.line } : LineStart) :: first :: rest).Pairwise
        (·.offset ≤ ·.offset) :=
      List.pairwise_cons.mpr ⟨fun start _ => Nat.zero_le _, hsorted⟩
    have hactive := @lineAt_normalFrom (first :: rest) byte none _ hpending (Nat.zero_le _)
    rw [Option.or_none] at hactive
    rw [written, hactive, List.head?_cons, Option.map_some]
    cases lineAt (first :: rest) byte <;> rfl

/-- Starts in normal form are read back as they were written. -/
theorem Normal.decode_encode {starts : List LineStart} (h : Normal starts) (firstLine : UInt32) :
    decode (encode firstLine starts).1 (encode firstLine starts).2 = .ok starts := by
  obtain ⟨line, rest, rfl⟩ := h.exists_cons
  rw [LineTable.decode_encode firstLine (h.ascending.imp Nat.le_of_lt), normalFrom, if_pos rfl,
    normalFrom_of_ascending (by simp) h.ascending h.changing]

/-- What reading keeps true of the starts so far, which stand last first. -/
structure Reader.Ordered (reader : Reader) : Prop where
  behind : ∀ start ∈ reader.starts, start.offset < reader.offset
  last : reader.last = reader.starts.head?.map fun start => (start.line.toNat : Int)
  first : ∀ start, reader.starts.getLast? = some start → start.offset = 0
  none : reader.starts = [] → reader.offset = 0
  descending : reader.starts.Pairwise (·.offset > ·.offset)
  changing : reader.starts.IsChain (·.line ≠ ·.line)

/-- A start keeps the order, and then some line has started. -/
theorem Reader.Ordered.start {reader started : Reader} (h : reader.Ordered)
    (hstart : reader.start = .ok started) :
    started.starts ≠ [] ∧ (∀ start ∈ started.starts, start.offset ≤ started.offset) ∧
      (∀ start, started.starts.getLast? = some start → start.offset = 0) ∧
      started.last = (started.starts.head?.map fun start => (start.line.toNat : Int)) ∧
      started.starts.Pairwise (·.offset > ·.offset) ∧ started.starts.IsChain (·.line ≠ ·.line) := by
  obtain ⟨hbehind, hlast, hfirst, hnone, hdescending, hchanging⟩ := h
  rcases Reader.start_cases hstart with ⟨hsame, rfl⟩ | ⟨line, hline, hother, rfl⟩
  · refine ⟨fun hempty => ?_, fun start hmem => Nat.le_of_lt (hbehind start hmem), hfirst, hlast,
      hdescending, hchanging⟩
    rw [hlast, hempty] at hsame
    cases hsame
  · refine ⟨by simp, fun start hmem => ?_, fun start hmem => ?_, ?_, ?_, ?_⟩
    · rcases List.mem_cons.mp hmem with rfl | hmem
      · exact Nat.le_refl _
      · exact Nat.le_of_lt (hbehind start hmem)
    · cases hstarts : reader.starts with
      | nil =>
        simp only [hstarts, List.getLast?_singleton, Option.some.injEq] at hmem
        rw [← hmem]
        exact hnone hstarts
      | cons head tail =>
        refine hfirst start ?_
        simp only [hstarts, List.getLast?_cons_cons] at hmem
        rw [hstarts]
        exact hmem
    · exact congrArg some hline.symm
    · exact List.pairwise_cons.mpr ⟨hbehind, hdescending⟩
    · cases hstarts : reader.starts with
      | nil => exact .singleton _
      | cons head tail =>
        rw [hstarts] at hchanging
        refine List.isChain_cons_cons.mpr ⟨fun heq => hother ?_, hchanging⟩
        rw [hlast, hstarts, List.head?_cons, Option.map_some, ← heq, hline]

theorem Reader.Ordered.step {reader next : Reader} (h : reader.Ordered) {step : Step}
    (hstep : reader.step step = .ok next) : next.Ordered := by
  obtain ⟨-, rfl⟩ | ⟨started, hadvance, hstart, rfl⟩ := Reader.step_cases hstep
  · exact ⟨h.behind, h.last, h.first, h.none, h.descending, h.changing⟩
  · obtain ⟨hsome, hle, hfirst, hlast, hdescending, hchanging⟩ := h.start hstart
    have hpos : step.advance.toNat ≠ 0 := fun e => hadvance (UInt8.toNat_inj.mp e)
    refine ⟨fun start hmem => ?_, hlast, hfirst, fun hempty => absurd hempty hsome, hdescending,
      hchanging⟩
    have := hle start hmem
    show start.offset < started.offset + step.advance.toNat
    omega

theorem Reader.Ordered.readSteps {table : List UInt8} {reader final : Reader} (h : reader.Ordered)
    (hread : readSteps reader table = .ok final) : final.Ordered := by
  fun_induction LineTable.readSteps reader table with
  | case1 => cases hread
  | case2 reader advance move rest next hstep ih => exact ih (h.step hstep) hread
  | case3 => cases hread; exact h

theorem Reader.ordered_first (line : UInt32) : (Reader.first line).Ordered :=
  ⟨by simp [Reader.first], rfl, by simp [Reader.first], fun _ => rfl, .nil, .nil⟩

/-- Every table gives starts in normal form. -/
theorem normal_of_decode {firstLine : UInt32} {table : List UInt8} {starts : List LineStart}
    (h : decode firstLine table = .ok starts) : Normal starts := by
  obtain ⟨-, final, started, hread, hstart, rfl⟩ := decode_eq_ok.mp h
  obtain ⟨hsome, -, hfirst, -, hdescending, hchanging⟩ :=
    ((Reader.ordered_first firstLine).readSteps hread).start hstart
  refine ⟨?_, List.pairwise_reverse.mpr hdescending, ?_⟩
  · obtain ⟨start, hlast⟩ := Option.isSome_iff_exists.mp (List.getLast?_isSome.mpr hsome)
    rw [List.head?_reverse, hlast, Option.map_some, hfirst start hlast]
  · rw [List.isChain_reverse]
    exact hchanging.imp fun _ _ hne => Ne.symm hne

end LineTable
end StackCode
