import StackCode.InstructionSet.Small
import StackCode.Proofs.Assembly.Overtaken

/-!
The width of a relative branch.

Its distance is measured from its end, so that each extension unit makes the argument smaller by one.
Around 256, 65536 and 2 ^ 24 an argument can need one unit less than it is given, and the first unit
is then zero.  The search takes the first number of extension units that can carry the argument left
by them, and there always is one unless the branch leads back.  It is shown here that the numbers it
comes to fit 32 bits, so that it may run on words.
-/

namespace StackCode

open Encoding Outcome

/-- A branch at `unit` lands on `target` with this width, and with no fewer extension units. -/
structure Width.Least (unit target : Nat) (width : Width) : Prop where
  lands : unit + width.extensions + 1 + width.argument = target
  carries : extensionCount width.argument ≤ width.extensions
  extensions_le : width.extensions ≤ maxExtensions
  least : ∀ fewer < width.extensions, ¬extensionCount (target - unit - 1 - fewer) ≤ fewer

theorem Width.Least.argument_eq {unit target : Nat} {width : Width} (h : width.Least unit target) :
    target - unit - 1 - width.extensions = width.argument := by
  have hlands := h.lands
  omega

/-- Of two widths that are least, neither has fewer extension units than the other. -/
theorem Width.Least.unique {unit target : Nat} {width other : Width}
    (h : width.Least unit target) (hother : other.Least unit target) : width = other := by
  have hextensions : width.extensions = other.extensions := by
    rcases Nat.lt_trichotomy width.extensions other.extensions with hlt | heq | hlt
    · exact absurd (h.argument_eq ▸ h.carries) (hother.least width.extensions hlt)
    · exact heq
    · exact absurd (hother.argument_eq ▸ hother.carries) (h.least other.extensions hlt)
  have hargument : width.argument = other.argument := by
    rw [← h.argument_eq, ← hother.argument_eq, hextensions]
  cases width
  cases other
  simp_all

namespace Layout

/-! ### The search -/

/-- The search does not pass a number of extension units that would do. -/
theorem least_of_relativeFrom {unit target : Nat} {width : Width} :
    ∀ {fuel extensions : Nat},
      (∀ fewer < extensions, ¬extensionCount (target - unit - 1 - fewer) ≤ fewer) →
      relativeFrom unit target fuel extensions = .ok width →
      ∀ fewer < width.extensions, ¬extensionCount (target - unit - 1 - fewer) ≤ fewer := by
  intro fuel
  induction fuel with
  | zero =>
    intro extensions _ h
    cases h
  | succ fuel ih =>
    intro extensions hpassed h
    rw [relativeFrom] at h
    split at h
    · cases h
    · split at h
      · cases h
        exact hpassed
      · rename_i hshort
        refine ih (fun fewer hfewer => ?_) h
        rcases Nat.lt_succ_iff_lt_or_eq.mp hfewer with hlt | rfl
        · exact hpassed fewer hlt
        · have hleft : target - unit - 1 - fewer = target - (unit + fewer + 1) := by omega
          rwa [hleft]

theorem least_of_relative {unit target : Nat} {width : Width}
    (h : relative unit target = .ok width) : width.Least unit target := by
  obtain ⟨hlands, hcarries, hmost⟩ := relative_eq_ok h
  exact ⟨hlands.symm, hcarries, hmost, least_of_relativeFrom (by simp) h⟩

/-- The search finds the least width, and there is one exactly if the target stands behind the
branch. -/
theorem relative_eq_ok_iff {unit target : Nat} {width : Width} :
    relative unit target = .ok width ↔ width.Least unit target := by
  refine ⟨least_of_relative, fun h => ?_⟩
  have hahead : unit < target := by
    have hlands := h.lands
    omega
  obtain ⟨found, hfound⟩ := exists_relative hahead
  rw [hfound, (least_of_relative hfound).unique h]

theorem exists_relative_iff {unit target : Nat} :
    (∃ width, relative unit target = .ok width) ↔ unit < target := by
  constructor
  · rintro ⟨width, hwidth⟩
    have hlands := (least_of_relative hwidth).lands
    omega
  · exact exists_relative

/-! ### Words -/

/-- The search in arithmetic of 32 bits, where sums and differences wrap around. -/
def wordRelativeFrom (unit target : UInt32) : (fuel extensions : Nat) → Except Error Width
  | 0, _ => .error (.distantBranch unit.toNat target.toNat)
  | fuel + 1, extensions =>
    let next := unit + .ofNat extensions + 1
    if target < next then .error (.backwardBranch unit.toNat target.toNat)
    else if extensionCount (target - next).toNat ≤ extensions then
      .ok { argument := (target - next).toNat, extensions }
    else wordRelativeFrom unit target fuel (extensions + 1)

/-- The width of a relative branch between two words. -/
def wordRelative (unit target : UInt32) : Except Error Width :=
  wordRelativeFrom unit target (maxExtensions + 1) 0

theorem toNat_next (unit : UInt32) (extensions : Nat)
    (h : unit.toNat + extensions + 1 < 0x100000000) :
    (unit + .ofNat extensions + 1).toNat = unit.toNat + extensions + 1 := by
  rw [UInt32.toNat_add, UInt32.toNat_add, UInt32.toNat_ofNat', UInt32.toNat_one]
  omega

/-- As long as the ends that are tried fit a word, the search on words is that on numbers. -/
theorem wordRelativeFrom_eq {unit target : UInt32} :
    ∀ {fuel extensions : Nat}, unit.toNat + extensions + fuel < 0x100000000 →
      wordRelativeFrom unit target fuel extensions =
        relativeFrom unit.toNat target.toNat fuel extensions := by
  intro fuel
  induction fuel with
  | zero => exact fun _ => rfl
  | succ fuel ih =>
    intro extensions hroom
    have hnext := toNat_next unit extensions (by omega)
    rw [wordRelativeFrom, relativeFrom]
    simp only [UInt32.lt_iff_toNat_lt, hnext]
    by_cases hback : target.toNat < unit.toNat + extensions + 1
    · rw [if_pos hback, if_pos hback]
    · have hle : unit + .ofNat extensions + 1 ≤ target := by
        rw [UInt32.le_iff_toNat_le, hnext]
        omega
      rw [if_neg hback, if_neg hback, UInt32.toNat_sub_of_le _ _ hle, hnext, ih (by omega)]

theorem wordRelative_eq {unit target : UInt32} (h : unit.toNat + 4 < 0x100000000) :
    wordRelative unit target = relative unit.toNat target.toNat :=
  wordRelativeFrom_eq h

-- With less room a sum wraps around, and a branch back would be taken for one that leads on.
example : wordRelative 0xffffffff 0 = .ok { argument := 0, extensions := 0 } := by decide

/-! ### Reading -/

/-- A relative branch with the least width is read back with its target, wherever it stands. -/
theorem readAt_relative {isa : InstructionSet} {opcode : UInt8}
    (hkind : isa.operandKind opcode = .ok .relativeJump) {unit target : Nat} {width : Width}
    (hleast : width.Least unit target) (hword : target < 0x100000000) {before : List UInt8}
    (hbefore : before.length = 2 * unit) (after : List UInt8) :
    Decoded.readAt isa
        (before ++ instruction isa.extension opcode width.argument width.extensions ++ after)
        unit =
      .ok {
        offset := unit
        size := width.extensions + 1
        opcode
        argument := some width.argument
        target := some target
        line := none
        isTarget := false } := by
  obtain ⟨hlands, hcarries, hmost, -⟩ := hleast
  have hfits := lt_of_extensionCount_le (by omega) hcarries
  have hopcode := InstructionSet.ne_extension_of_operandKind hkind
  have htarget : Decoded.Group.target
      { size := width.extensions + 1, opcode, argument := width.argument } unit .relativeJump =
      .ok (some target) := by
    have hend : unit + (width.extensions + 1) + width.argument = target := by omega
    simp only [Decoded.Group.target]
    rw [hend, if_pos hword]
  have hread := Decoded.read_eq_ok.mpr
    ⟨_, Decoded.Group.read_instruction hopcode hmost hfits unit after,
      Decoded.ofGroup_eq_ok.mpr ⟨_, _, hkind, htarget, rfl⟩⟩
  rw [Decoded.readAt, List.append_assoc, ← hbefore, List.drop_left, hread]
  rfl

/-- Between words, a relative branch has a width exactly if it leads on, and it is the least one that
carries the distance behind it.  With any other target the branch leads back; there is no distance
that is too long.  On words the search does not wrap around, if four units fit behind the branch, and
the units of the branch are read back with their number and the target. -/
theorem relative_least (unit target : UInt32) (hunit : unit.toNat + 4 < 0x100000000) :
    wordRelative unit target = relative unit.toNat target.toNat ∧
      ((∃ width, relative unit.toNat target.toNat = .ok width) ↔ unit < target) ∧
      (∀ error, relative unit.toNat target.toNat = .error error →
        error = .backwardBranch unit.toNat target.toNat) ∧
      ∀ width, relative unit.toNat target.toNat = .ok width →
        width.Least unit.toNat target.toNat ∧
          ∀ (isa : InstructionSet) (opcode : UInt8),
            isa.operandKind opcode = .ok .relativeJump → ∀ before after : List UInt8,
            before.length = 2 * unit.toNat →
            Decoded.readAt isa
                (before ++ instruction isa.extension opcode width.argument width.extensions ++
                  after) unit.toNat =
              .ok {
                offset := unit.toNat
                size := width.extensions + 1
                opcode
                argument := some width.argument
                target := some target.toNat
                line := none
                isTarget := false } := by
  refine ⟨wordRelative_eq hunit, ?_, fun error herror => (relative_eq_error_iff.mp herror).2,
    fun width hwidth => ?_⟩
  · rw [exists_relative_iff, UInt32.lt_iff_toNat_lt]
  · have hleast := relative_eq_ok_iff.mp hwidth
    refine ⟨hleast, fun isa opcode hkind before after hbefore => ?_⟩
    exact readAt_relative hkind hleast target.toNat_lt hbefore after

/-- A distance of 256 needs an extension unit, and the unit makes it 255, so that it is zero. -/
theorem overZero_least :
    (0 : UInt32).toNat + 4 < 0x100000000 ∧
      wordRelative 0 257 = .ok { argument := 255, extensions := 1 } ∧
      Decoded.readAt .small [144, 0, 110, 255] 0 =
        .ok { offset := 0, size := 2, opcode := 110, argument := some 255, target := some 257,
              line := none, isTarget := false } := by
  have hunit : (0 : UInt32).toNat + 4 < 0x100000000 := by decide
  obtain ⟨hword, -, -, hwidth⟩ := relative_least 0 257 hunit
  obtain ⟨-, hread⟩ := hwidth { argument := 255, extensions := 1 } rfl
  exact ⟨hunit, hword, hread .small 110 rfl [] [] rfl⟩

end Layout
end StackCode
