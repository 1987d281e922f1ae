import StackCode.Proofs.Bytecode.NormalForm

/-!
Written tables are shortest.

Between two starts a table has to advance by 255 bytes at most with each pair, and while it does
the line has to stay what it is.  Only the pair that arrives at the second start, and those behind
it that advance no further, can move the line.  So no table gets from one start to the next with
fewer pairs than are written for it, whatever else its pairs do on the way.
-/

namespace StackCode
namespace LineTable

open Outcome

/-! ### Numbers of pairs -/

theorem length_withAdvance (advance : UInt8) (moves : List Int8) :
    (withAdvance advance moves).length = moves.length := by
  cases moves with
  | nil => rfl
  | cons move rest => rw [withAdvance, List.length_cons, List.length_map, List.length_cons]

/-- The advance and the move of a distance take pairs of their own, except that the last part of the
advance goes with the first move. -/
theorem length_stepsFor {bytes : Nat} (hbytes : 0 < bytes) (delta : Int) :
    (stepsFor bytes delta).length = (bytes - 1) / 255 + (moves delta).length := by
  rw [stepsFor, if_neg fun hnone => Nat.ne_of_gt hbytes hnone.1, List.length_append,
    List.length_replicate, length_withAdvance]

theorem length_moves (delta : Int) :
    (moves delta).length =
      if 127 < delta then ((delta - 1) / 127).toNat + 1
      else if delta < -128 then ((-delta - 1) / 128).toNat + 1
      else 1 := by
  rw [moves]
  split
  · rw [List.length_append, List.length_replicate, List.length_singleton]
  · split
    · rw [List.length_append, List.length_replicate, List.length_singleton]
    · rfl

theorem length_moves_toInt (move : Int8) : (moves move.toInt).length = 1 := by
  have hlow := move.le_toInt
  have hhigh := move.toInt_lt
  rw [length_moves, if_neg (by omega), if_neg (by omega)]

/-- One more pair moves the line no further than by one byte. -/
theorem length_moves_add (delta : Int) (move : Int8) :
    (moves (delta + move.toInt)).length ≤ (moves delta).length + 1 := by
  have hlow := move.le_toInt
  have hhigh := move.toInt_lt
  rw [length_moves, length_moves]
  split_ifs <;> omega

/-! ### What pairs are spent on -/

/-- The pairs that are written between starts, of which the last one stands first. -/
def pairsBetween : List LineStart → Nat
  | later :: earlier :: rest =>
    (stepsFor (later.offset - earlier.offset)
      ((later.line.toNat : Int) - (earlier.line.toNat : Int))).length +
      pairsBetween (earlier :: rest)
  | _ => 0

theorem pairsBetween_stepsFrom (starts : List LineStart) :
    ∀ (previous : LineStart) (done : List LineStart),
      pairsBetween (starts.reverse ++ previous :: done) =
        (stepsFrom previous starts).length + pairsBetween (previous :: done) := by
  induction starts with
  | nil =>
    intro previous done
    exact (Nat.zero_add _).symm
  | cons start rest ih =>
    intro previous done
    rw [List.reverse_cons, List.append_assoc, List.singleton_append, ih, stepsFrom_cons,
      List.length_append, pairsBetween]
    omega

/-- A table that is written has two bytes for each pair between its starts. -/
theorem Normal.length_encode {starts : List LineStart} (h : Normal starts) (firstLine : UInt32) :
    (encode firstLine starts).2.length = 2 * pairsBetween starts.reverse := by
  obtain ⟨line, rest, rfl⟩ := h.exists_cons
  have hnone : stepsFor 0 ((line.toNat : Int) - (line.toNat : Int)) = [] := by
    rw [Int.sub_self]
    rfl
  rw [encode, length_bytes, stepsFrom_cons, Nat.sub_self, hnone, List.nil_append,
    List.reverse_cons, pairsBetween_stepsFrom]
  rfl

/-- So many pairs are enough for the starts so far, and to come from the last one to where the
reader stands. -/
def Reader.Spends (reader : Reader) (count : Nat) : Prop :=
  ∀ last rest, reader.starts = last :: rest →
    pairsBetween (last :: rest) +
      (stepsFor (reader.offset - last.offset)
        (reader.line - (last.line.toNat : Int))).length ≤ count

/-- A line that starts takes no pairs but those that led to it. -/
theorem Reader.Spends.start {reader started : Reader} {count : Nat} (h : reader.Spends count)
    (hstart : reader.start = .ok started) : pairsBetween started.starts ≤ count := by
  cases hstarts : reader.starts with
  | nil =>
    rcases Reader.start_cases hstart with ⟨-, rfl⟩ | ⟨line, -, -, rfl⟩
    · rw [hstarts]
      exact Nat.zero_le count
    · rw [hstarts]
      exact Nat.zero_le count
  | cons last rest =>
    have hspent := h last rest hstarts
    rcases Reader.start_cases hstart with ⟨-, rfl⟩ | ⟨line, hline, -, rfl⟩
    · rw [hstarts]
      exact Nat.le_trans (Nat.le_add_right _ _) hspent
    · rw [hstarts, pairsBetween, hline, Nat.add_comm]
      exact hspent

/-- A pair that goes on leads one pair further.  If the line it leaves is active already, the way
from the last start gets longer by at most 255 bytes, and otherwise it begins anew. -/
theorem Reader.Spends.advance {reader started : Reader} {count : Nat} (h : reader.Spends count)
    (hordered : reader.Ordered) (hstart : reader.start = .ok started) {advance : UInt8}
    (hadvance : advance ≠ 0) (move : Int8) :
    (started.moved advance.toNat move.toInt).Spends (count + 1) := by
  have hbyte : advance.toNat < 256 := advance.toNat_lt
  have hpos : advance.toNat ≠ 0 := fun hzero => hadvance (UInt8.toNat_inj.mp hzero)
  have hmove := length_moves_toInt move
  intro last rest hstarts
  rcases Reader.start_cases hstart with ⟨hsame, rfl⟩ | ⟨line, hline, -, rfl⟩
  · have hstarts : started.starts = last :: rest := hstarts
    have hspent := h last rest hstarts
    have hbehind : last.offset < started.offset :=
      hordered.behind last (hstarts ▸ List.mem_cons_self)
    have hlast : (last.line.toNat : Int) = started.line := by
      rw [hordered.last, hstarts] at hsame
      exact Option.some.inj hsame
    have hmoved : started.line + move.toInt - started.line = move.toInt := by omega
    rw [hlast, length_stepsFor (by omega)] at hspent
    simp only [Reader.moved]
    rw [hlast, hmoved, length_stepsFor (by omega), hmove]
    have := List.length_pos_iff.mpr (moves_ne_nil (started.line - started.line))
    omega
  · have hspent := h.start hstart
    have hstarts : { offset := reader.offset, line } :: reader.starts = last :: rest := hstarts
    cases hstarts
    have hmoved : reader.line + move.toInt - reader.line = move.toInt := by omega
    simp only [Reader.moved]
    rw [hline, hmoved, Nat.add_sub_cancel_left, length_stepsFor (by omega), hmove]
    simp only at hspent
    omega

/-- Each pair that is read counts. -/
theorem Reader.Spends.step {reader next : Reader} {count : Nat} (h : reader.Spends count)
    (hordered : reader.Ordered) {step : Step} (hstep : reader.step step = .ok next) :
    next.Spends (count + 1) := by
  obtain ⟨-, rfl⟩ | ⟨started, hadvance, hstart, rfl⟩ := Reader.step_cases hstep
  · intro last rest hstarts
    have hstarts : reader.starts = last :: rest := hstarts
    have hbehind : last.offset < reader.offset :=
      hordered.behind last (hstarts ▸ List.mem_cons_self)
    have hspent := h last rest hstarts
    have hmore := length_moves_add (reader.line - (last.line.toNat : Int)) step.move
    have hmoved : reader.line + step.move.toInt - (last.line.toNat : Int) =
        reader.line - (last.line.toNat : Int) + step.move.toInt := by omega
    rw [length_stepsFor (by omega)] at hspent
    simp only [Reader.moved, Nat.add_zero]
    rw [hmoved, length_stepsFor (by omega)]
    omega
  · exact h.advance hordered hstart hadvance step.move

/-- A whole table spends as many pairs as it has. -/
theorem Reader.Spends.readSteps {table : List UInt8} {reader final : Reader}
    (hordered : reader.Ordered) (hread : readSteps reader table = .ok final) :
    ∀ {count : Nat}, reader.Spends count → final.Spends (count + table.length / 2) := by
  fun_induction LineTable.readSteps reader table with
  | case1 => cases hread
  | case2 reader advance move rest next hstep ih =>
    intro count h
    have hrest := ih (hordered.step hstep) hread (h.step hordered hstep)
    have hlength : count + (advance :: move :: rest).length / 2 =
        count + 1 + rest.length / 2 := by
      simp only [List.length_cons]
      omega
    rwa [hlength]
  | case3 =>
    intro count h
    cases hread
    intro last rest hstarts
    exact Nat.le_trans (h last rest hstarts) (Nat.le_add_right _ _)

theorem Reader.offset_of_step {reader next : Reader} {step : Step}
    (hstep : reader.step step = .ok next) : next.offset = reader.offset + step.advance.toNat := by
  obtain ⟨hadvance, rfl⟩ | ⟨started, -, hstart, rfl⟩ := Reader.step_cases hstep
  · rw [hadvance]
    rfl
  · rw [← (Reader.start_eq_ok hstart).2.2]
    rfl

/-- A reader comes as far as its table reaches. -/
theorem offset_of_readSteps {table : List UInt8} {reader final : Reader}
    (hread : readSteps reader table = .ok final) : final.offset = reader.offset + reach table := by
  fun_induction LineTable.readSteps reader table with
  | case1 => cases hread
  | case2 reader advance move rest next hstep ih =>
    have hnext := Reader.offset_of_step hstep
    simp only at hnext
    rw [ih hread, reach, hnext, Nat.add_assoc]
  | case3 short reader hshort =>
    cases hread
    rw [reach, Nat.add_zero]
    exact hshort

/-! ### Tables that give the same starts -/

section Same

variable {firstLine : UInt32} {table : List UInt8} {starts : List LineStart}

/-- No table that gives the same starts is shorter than the one that is written for them. -/
theorem length_encode_le (h : decode firstLine table = .ok starts) (line : UInt32) :
    (encode line starts).2.length ≤ table.length := by
  rw [(normal_of_decode h).length_encode]
  obtain ⟨heven, final, started, hread, hstart, rfl⟩ := decode_eq_ok.mp h
  have hfront : (Reader.first firstLine).Spends 0 := fun last rest hstarts => nomatch hstarts
  have hspent := (hfront.readSteps (Reader.ordered_first firstLine) hread).start hstart
  rw [List.reverse_reverse]
  omega

/-- Lines start within the reach of a table. -/
theorem offset_le_reach (h : decode firstLine table = .ok starts) :
    ∀ start ∈ starts, start.offset ≤ reach table := by
  obtain ⟨-, final, started, hread, hstart, rfl⟩ := decode_eq_ok.mp h
  intro start hmem
  have hordered := (Reader.ordered_first firstLine).readSteps hread
  have hle := (hordered.start hstart).2.1 start (List.mem_reverse.mp hmem)
  rw [(Reader.start_eq_ok hstart).2.2, offset_of_readSteps hread] at hle
  exact Nat.le_trans hle (Nat.le_of_eq (Nat.zero_add _))

/-- Every table gives starts in normal form.  Written again they are read as they were, and no table
that gives them is shorter than the one that is written, or advances by fewer bytes. -/
theorem encode_decode_shortest (h : decode firstLine table = .ok starts) (default : UInt32) :
    Normal starts ∧
      decode (encode default starts).1 (encode default starts).2 = .ok starts ∧
      ∀ line other, decode line other = .ok starts →
        (encode default starts).2.length ≤ other.length ∧
          reach (encode default starts).2 ≤ reach other := by
  have hnormal := normal_of_decode h
  refine ⟨hnormal, hnormal.decode_encode default, fun line other hother =>
    ⟨length_encode_le hother default, ?_⟩⟩
  obtain ⟨line', rest, rfl⟩ := hnormal.exists_cons
  rw [reach_encode default (hnormal.ascending.imp Nat.le_of_lt)]
  exact offset_le_reach hother _ (List.getLast_mem _)

end Same

/-- A table that takes the line below zero and back without an advance, advances where no line
starts, and goes on behind the last start. -/
def wasteful : List UInt8 := [0, 128, 0, 127, 0, 3, 4, 1, 200, 0, 100, 0, 0, 250, 0, 7, 9, 0]

/-- The starts that `wasteful` gives. -/
def wastefulStarts : List LineStart :=
  [{ offset := 0, line := 3 }, { offset := 4, line := 4 }, { offset := 304, line := 5 }]

/-- Three pairs do what `wasteful` does with nine, and no fewer. -/
theorem wasteful_shortest :
    decode 1 wasteful = .ok wastefulStarts ∧
      decode 3 [4, 1, 255, 0, 45, 1] = .ok wastefulStarts ∧
      ∀ line other, decode line other = .ok wastefulStarts →
        6 ≤ other.length ∧ 304 ≤ reach other := by
  have hdecode : decode 1 wasteful = .ok wastefulStarts := by decide +kernel
  obtain ⟨-, hagain, hshortest⟩ := encode_decode_shortest hdecode 1
  exact ⟨hdecode, hagain, hshortest⟩

end LineTable
end StackCode
