import Mathlib.Data.List.TakeWhile
import StackCode.Proofs.Pattern.Store

/-!
Tokens and the scopes that they name.

A token is good for as long as its scope is open, and for no longer: scopes that are opened at the
same depth later on have tokens of their own.  While it is good, going back to it undoes whatever was
done to the store since.
-/

namespace StackCode
namespace Captures

variable {ν : Type} {outer captures : Captures ν}

/-! ## Open scopes -/

/-- Unwinding a scope on the floor leaves the floor, with the ids that were used up since. -/
theorem OnFloor.unwind {id : Nat} (h : outer.OnFloor id captures) :
    captures.unwind { id := id } = { outer with fresh := captures.fresh } := by
  obtain ⟨inner, own, fresh, rfl, hinner, -⟩ := h
  exact outer.unwind_atop hinner own [] fresh

/-- A scope on the floor can be left if no other is inside it. -/
theorem OnFloor.exit {id : Nat} (h : outer.OnFloor id captures) :
    captures.exit { id := id } =
      if captures.depth = outer.depth + 1 then .ok { outer with fresh := captures.fresh }
      else .error .scopeMismatch := by
  obtain ⟨inner, own, fresh, rfl, hinner, -⟩ := h
  cases inner with
  | nil =>
    have hdepth : (outer.atop [{ id := id, bindings := own }] fresh).depth = outer.depth + 1 := rfl
    rw [List.nil_append, if_pos hdepth]
    exact outer.exit_atop id own [] fresh
  | cons scope inner =>
    have hne : scope.id ≠ id := Nat.ne_of_gt (hinner scope List.mem_cons_self)
    rw [if_neg]
    · exact if_neg hne
    · simp [depth, atop]
      omega

/-- A scope on the floor is at the depth where it was opened. -/
theorem OnFloor.at_depth {id : Nat} (h : outer.OnFloor id captures) :
    (captures.scopes.reverse[outer.depth]?).map Scope.id = some id := by
  obtain ⟨inner, own, fresh, rfl, -, -⟩ := h
  simp [atop, depth]

theorem Retired.unwind {id : Nat} (h : captures.Retired id) :
    captures.unwind { id := id } = captures := by
  have hnone : captures.scopes.dropWhile (·.id ≠ id) = [] := by
    rw [List.dropWhile_eq_nil_iff]
    intro scope hscope
    have hne : scope.id ≠ id := fun heq => h.1 (heq ▸ List.mem_map_of_mem hscope)
    exact decide_eq_true hne
  rw [Captures.unwind]
  simp only [hnone]

theorem Retired.exit {id : Nat} (h : captures.Retired id) :
    captures.exit { id := id } = .error .scopeMismatch := by
  unfold Captures.exit
  split
  · rename_i scope below hscopes
    apply if_neg
    intro heq
    have hmem : scope ∈ captures.scopes := hscopes ▸ List.mem_cons_self
    exact h.1 (List.mem_map.mpr ⟨scope, hmem, heq⟩)
  · rfl

theorem Retired.not_at_depth {id : Nat} (h : captures.Retired id) (depth : Nat) :
    (captures.scopes.reverse[depth]?).map Scope.id ≠ some id := by
  intro hat
  obtain ⟨scope, hscope, rfl⟩ := Option.map_eq_some_iff.mp hat
  exact h.1 (List.mem_map_of_mem (List.mem_reverse.mp (List.mem_of_getElem? hscope)))

/-! ## Rolling back -/

/-- Whatever was done to the store since a scope was opened in it, as long as the scope is open,
unwinding it gives the store back as it was, and so does leaving it if it is the innermost one.
Only the ids that were used up since do not come back. -/
theorem Reachable.rolls_back (hreach : outer.Reachable) {ops : List (StoreOp ν)}
    (hopen : outer.StillOpen ops) :
    let later := outer.enter.2.performAll ops
    later.unwind outer.enter.1 = { outer with fresh := later.fresh } ∧
      (later.depth = outer.depth + 1 →
        later.exit outer.enter.1 = .ok { outer with fresh := later.fresh }) := by
  intro later
  rcases hreach.onFloor_or_retired ops with ⟨-, hfloor⟩ | ⟨hclosed, -⟩
  · refine ⟨hfloor.unwind, fun hdepth => ?_⟩
    exact hfloor.exit.trans (if_pos hdepth)
  · exact absurd hopen hclosed

/-- A name is bound in the base scope and another one in a scope on top of it. -/
def layered : Captures Nat := empty.performAll [.bind "x" 1, .enter, .bind "y" 2]

/-- Both names are bound again, scopes are opened, and tokens are used that name an inner scope, an
outer one and one that is closed. -/
def layeredOps : List (StoreOp Nat) :=
  [.bind "x" 3, .enter, .bindAll [("y", 4), ("x", 5)], .enter, .exit { id := 3 },
    .unwind { id := 3 }, .exit { id := 1 }, .unwind { id := 4 }]

theorem layered_rolls_back :
    layered.Reachable ∧ layered.StillOpen layeredOps ∧
      (layered.enter.2.performAll layeredOps).snapshot = [("x", 3), ("y", 2)] ∧
      (layered.enter.2.performAll layeredOps).unwind layered.enter.1 =
        { layered with fresh := 5 } ∧
      (layered.enter.2.performAll layeredOps).exit layered.enter.1 =
        .ok { layered with fresh := 5 } := by
  have hreach : layered.Reachable := ⟨_, rfl⟩
  have hopen : layered.StillOpen layeredOps := by decide
  obtain ⟨hunwind, hexit⟩ := hreach.rolls_back hopen
  exact ⟨hreach, hopen, rfl, hunwind, hexit (by decide)⟩

/-! ## Tokens -/

/-- How a store treats the token of the scope that was opened in `outer`, if `isOpen` says whether the
scope is open. -/
structure Honours (outer later : Captures ν) (isOpen : Prop) : Prop where
  /-- The scope can be left exactly if it is open and no other is inside it. -/
  exit_iff : (∃ closed, later.exit outer.enter.1 = .ok closed) ↔
    isOpen ∧ later.depth = outer.depth + 1
  /-- Otherwise that is an error, and the store stays as it is. -/
  refused : ¬(isOpen ∧ later.depth = outer.depth + 1) →
    later.exit outer.enter.1 = .error .scopeMismatch ∧ later.perform (.exit outer.enter.1) = later
  unwind_iff : later.unwind outer.enter.1 ≠ later ↔ isOpen
  /-- At the depth where the scope was opened, another one has another id. -/
  at_depth_iff : (later.scopes.reverse[outer.depth]?).map Scope.id = some outer.enter.1.id ↔ isOpen
  /-- Once the scope is closed, nothing that is done to the store makes the token good again. -/
  closed_for_good : ¬isOpen → ∀ more,
    (later.performAll more).exit outer.enter.1 = .error .scopeMismatch ∧
      (later.performAll more).unwind outer.enter.1 = later.performAll more
  /-- The base scope keeps what is bound there, and no token closes it. -/
  base : outer.base <:+ later.base ∧
    ∀ token, (later.unwind token).base = later.base ∧
      (later.perform (.exit token)).base = later.base

theorem base_closed (captures : Captures ν) (token : ScopeToken) :
    (captures.unwind token).base = captures.base ∧
      (captures.perform (.exit token)).base = captures.base := by
  constructor
  · obtain ⟨rest, -, hunwind⟩ := captures.unwind_closes token
    rw [hunwind]
  · rw [perform]
    split
    · rename_i closed h
      obtain ⟨rest, -, rfl⟩ := exit_closes h
      rfl
    · rfl

theorem perform_exit_of_error {token : ScopeToken} {error : Error}
    (h : captures.exit token = .error error) : captures.perform (.exit token) = captures := by
  simp only [perform, h]

theorem OnFloor.honours {isOpen : Prop} (h : outer.OnFloor outer.fresh captures) (hopen : isOpen)
    (hbase : outer.base <:+ captures.base) : outer.Honours captures isOpen where
  exit_iff := by
    rw [enter, h.exit]
    by_cases hdepth : captures.depth = outer.depth + 1
    · simp [hdepth, hopen]
    · simp [hdepth]
  refused := by
    intro hnot
    have hexit : captures.exit outer.enter.1 = .error .scopeMismatch :=
      h.exit.trans (if_neg fun hdepth => hnot ⟨hopen, hdepth⟩)
    exact ⟨hexit, perform_exit_of_error hexit⟩
  unwind_iff := by
    refine ⟨fun _ => hopen, fun _ hsame => ?_⟩
    have hdepth : (captures.unwind outer.enter.1).depth = outer.depth := by
      rw [enter, h.unwind]
      rfl
    have hlt := h.depth_lt
    rw [hsame] at hdepth
    omega
  at_depth_iff := ⟨fun _ => hopen, fun _ => h.at_depth⟩
  closed_for_good := fun hclosed => absurd hopen hclosed
  base := ⟨hbase, captures.base_closed⟩

theorem Retired.honours {isOpen : Prop} (h : captures.Retired outer.fresh) (hclosed : ¬isOpen)
    (hbase : outer.base <:+ captures.base) : outer.Honours captures isOpen where
  exit_iff := by
    refine ⟨fun ⟨closed, hexit⟩ => ?_, fun hopen => absurd hopen.1 hclosed⟩
    rw [enter, h.exit] at hexit
    cases hexit
  refused := fun _ => ⟨h.exit, perform_exit_of_error h.exit⟩
  unwind_iff := ⟨fun hne => absurd h.unwind hne, fun hopen => absurd hopen hclosed⟩
  at_depth_iff :=
    ⟨fun hat => absurd hat (h.not_at_depth outer.depth), fun hopen => absurd hopen hclosed⟩
  closed_for_good := fun _ more => ⟨(h.performAll more).exit, (h.performAll more).unwind⟩
  base := ⟨hbase, captures.base_closed⟩

/-- A token is good exactly as long as its scope is open, whatever is done to the store. -/
theorem Reachable.token_valid_iff (hreach : outer.Reachable) (ops : List (StoreOp ν)) :
    outer.Honours (outer.enter.2.performAll ops) (outer.StillOpen ops) := by
  have hbase : outer.base <:+ (outer.enter.2.performAll ops).base :=
    outer.enter.2.base_performAll ops
  rcases hreach.onFloor_or_retired ops with ⟨hopen, hfloor⟩ | ⟨hclosed, hretired⟩
  · exact hfloor.honours hopen hbase
  · exact hretired.honours hclosed hbase

/-- The scope is closed from outside, and two others are opened, the second one at its depth. -/
theorem layered_token_valid :
    layered.Reachable ∧ ¬layered.StillOpen [.unwind { id := 1 }, .enter, .enter] ∧
      (layered.enter.2.performAll [.unwind { id := 1 }, .enter, .enter]).depth =
        layered.depth + 1 ∧
      layered.Honours (layered.enter.2.performAll [.unwind { id := 1 }, .enter, .enter])
        (layered.StillOpen [.unwind { id := 1 }, .enter, .enter]) := by
  have hreach : layered.Reachable := ⟨_, rfl⟩
  exact ⟨hreach, by decide, rfl, hreach.token_valid_iff _⟩

end Captures
end StackCode
