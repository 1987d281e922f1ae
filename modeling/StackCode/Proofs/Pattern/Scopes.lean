import StackCode.Pattern.Cursor
import StackCode.Proofs.Pattern.Ways

/-!
Stores with scopes on top of a floor, and what is in sight of them.

The floor is what a cursor finds and never touches.  Only the bindings in sight tell two stores
apart in a match, which is what lets a pattern have a meaning without scopes.
-/

namespace StackCode

namespace Captures

variable {ν : Type}

/-- The floor with `opened` scopes on top. -/
def atop (floor : Captures ν) (opened : List (Scope ν)) (fresh : Nat) : Captures ν :=
  { floor with scopes := opened ++ floor.scopes, fresh := fresh }

theorem atop_atop (floor : Captures ν) (inner opened : List (Scope ν)) (fresh later : Nat) :
    (floor.atop opened fresh).atop inner later = floor.atop (inner ++ opened) later := by
  unfold atop
  rw [List.append_assoc]

theorem enter_atop (floor : Captures ν) (opened : List (Scope ν)) (fresh : Nat) :
    (floor.atop opened fresh).enter =
      ({ id := fresh }, floor.atop ({ id := fresh, bindings := [] } :: opened) (fresh + 1)) := rfl

theorem exit_atop (floor : Captures ν) (id : Nat) (own : Bindings ν) (opened : List (Scope ν))
    (fresh : Nat) :
    (floor.atop ({ id := id, bindings := own } :: opened) fresh).exit { id := id } =
      .ok (floor.atop opened fresh) := by
  simp [atop, exit]

/-- Closing a scope closes those inside it. -/
theorem unwind_atop (floor : Captures ν) {inner : List (Scope ν)} {id : Nat}
    (h : ∀ scope ∈ inner, id < scope.id) (own : Bindings ν) (opened : List (Scope ν))
    (fresh : Nat) :
    (floor.atop (inner ++ { id := id, bindings := own } :: opened) fresh).unwind { id := id } =
      floor.atop opened fresh := by
  have hinner : ∀ scope ∈ inner, decide (scope.id ≠ id) = true := by
    intro scope hscope
    have hlt : id < scope.id := h scope hscope
    exact decide_eq_true (by omega)
  simp only [atop, unwind, List.append_assoc]
  rw [List.dropWhile_append_of_pos hinner]
  simp

theorem low_of_append {low id : Nat} {inner opened : List (Scope ν)}
    (hinner : ∀ scope ∈ inner, low ≤ scope.id) (hid : low ≤ id) (own : Bindings ν)
    (hopened : ∀ scope ∈ opened, low ≤ scope.id) :
    ∀ scope ∈ inner ++ { id := id, bindings := own } :: opened, low ≤ scope.id := by
  intro scope hscope
  rcases List.mem_append.mp hscope with hscope | hscope
  · exact hinner scope hscope
  · rcases List.mem_cons.mp hscope with hscope | hscope
    · rw [hscope]
      exact hid
    · exact hopened scope hscope

/-! ## Bindings in sight -/

theorem snapshot_bind (captures : Captures ν) (name : String) (value : ν) :
    (captures.bind name value).snapshot = Bindings.put captures.snapshot name value := by
  obtain ⟨base, scopes, fresh⟩ := captures
  cases scopes with
  | nil => rfl
  | cons scope below => rfl

theorem snapshot_bindAll (bindings : List (String × ν)) : ∀ captures : Captures ν,
    (captures.bindAll bindings).snapshot = Bindings.putAll captures.snapshot bindings := by
  induction bindings with
  | nil => exact fun _ => rfl
  | cons binding rest ih =>
    intro captures
    show ((captures.bind binding.1 binding.2).bindAll rest).snapshot = _
    rw [ih, snapshot_bind]
    rfl

theorem find?_eq_lookup (captures : Captures ν) (name : String) :
    captures.find? name = captures.snapshot.lookup name := by
  have hscopes : ∀ scopes : List (Scope ν),
      (scopes.findSome? fun scope => scope.bindings.lookup name) =
        (scopes.flatMap Scope.bindings).lookup name := by
    intro scopes
    induction scopes with
    | nil => rfl
    | cons scope below ih =>
      rw [List.findSome?_cons, List.flatMap_cons, List.lookup_append, ih]
      cases scope.bindings.lookup name <;> rfl
  rw [find?, snapshot, Bindings.lookup_visible, List.lookup_append, hscopes]

/-- What is bound in a store is bound where all that is in sight of it is in the base scope. -/
theorem get_ofBindings (captures : Captures ν) (name : String) :
    (ofBindings captures.snapshot).get name = captures.get name := by
  have hbase : (ofBindings captures.snapshot).find? name = captures.snapshot.lookup name := rfl
  rw [get, get, hbase, find?_eq_lookup]

/-- Bindings go to the innermost scope. -/
theorem bindAll_atop (floor : Captures ν) (id fresh : Nat) (opened : List (Scope ν))
    (bindings : List (String × ν)) : ∀ own,
    ∃ bound, (floor.atop ({ id := id, bindings := own } :: opened) fresh).bindAll bindings =
      floor.atop ({ id := id, bindings := bound } :: opened) fresh := by
  induction bindings with
  | nil => exact fun own => ⟨own, rfl⟩
  | cons binding rest ih => exact fun own => ih (binding :: own)

end Captures

variable {τ ν : Type} [Capturable τ ν]

theorem Captures.snapshot_bindIf (captures : Captures ν) (name : Option String) (value : ν) :
    (captures.bindIf name value).snapshot = Bindings.putIf captures.snapshot name value := by
  cases name with
  | none => rfl
  | some name => exact captures.snapshot_bind name value

theorem Captures.bindIf_atop (floor : Captures ν) (id fresh : Nat) (own : Bindings ν)
    (opened : List (Scope ν)) (name : Option String) (value : ν) :
    ∃ bound, (floor.atop ({ id := id, bindings := own } :: opened) fresh).bindIf name value =
      floor.atop ({ id := id, bindings := bound } :: opened) fresh := by
  cases name with
  | none => exact ⟨own, rfl⟩
  | some name => exact ⟨(name, value) :: own, rfl⟩

/-- Closing `scope`, if there is one, closes what is opened. -/
def Captures.Closes (floor : Captures ν) (opened : List (Scope ν))
    (scope : Option ScopeToken) : Prop :=
  ∀ fresh, (floor.atop opened fresh).exitIf scope = .ok (floor.atop [] fresh)

theorem Captures.closes_none (floor : Captures ν) : floor.Closes [] none := fun _ => rfl

theorem Captures.closes_some (floor : Captures ν) (id : Nat) (own : Bindings ν) :
    floor.Closes [{ id := id, bindings := own }] (some { id := id }) :=
  fun fresh => floor.exit_atop id own [] fresh

/-! ## Tests -/

/-- The store behind a token with a verdict, if the token passes. -/
def Verdict.store (capture : Option String) (token : τ) (captures : Captures ν) :
    Verdict ν → Option (Captures ν)
  | .reject => none
  | .accept => some (captures.bindIf capture (Capturable.ofToken token))
  | .bind bindings =>
    some ((captures.bindIf capture (Capturable.ofToken token)).bindAll bindings)

theorem Verdict.store_of_none {verdict : Verdict ν} {capture : Option String} {token : τ}
    {env : Bindings ν} (h : verdict.sight capture token env = none) (captures : Captures ν) :
    verdict.store capture token captures = none := by
  cases verdict with
  | reject => rfl
  | accept => nomatch h
  | bind bindings => nomatch h

/-- A token that passes in a scope that was just opened is bound there. -/
theorem Verdict.store_of_some {verdict : Verdict ν} {capture : Option String} {token : τ}
    {env : Bindings ν} {floor : Captures ν}
    (h : verdict.sight capture token floor.snapshot = some env) (id fresh : Nat) :
    ∃ own, verdict.store capture token (floor.atop [{ id := id, bindings := [] }] fresh) =
        some (floor.atop [{ id := id, bindings := own }] fresh) ∧
      (floor.atop [{ id := id, bindings := own }] fresh).snapshot = env := by
  obtain ⟨named, hnamed⟩ := floor.bindIf_atop id fresh [] [] capture (Capturable.ofToken token)
  have hsight : (floor.atop [{ id := id, bindings := named }] fresh).snapshot =
      Bindings.putIf floor.snapshot capture (Capturable.ofToken token) := by
    rw [← hnamed, Captures.snapshot_bindIf]
    rfl
  cases verdict with
  | reject => nomatch h
  | accept =>
    refine ⟨named, congrArg some hnamed, ?_⟩
    rw [hsight]
    exact Option.some.inj h
  | bind bindings =>
    obtain ⟨own, hown⟩ := floor.bindAll_atop id fresh [] bindings named
    refine ⟨own, ?_, ?_⟩
    · rw [Verdict.store, hnamed, hown]
    · rw [← hown, Captures.snapshot_bindAll, hsight]
      exact Option.some.inj h

variable [DecidableEq τ]

/-- What a test does in a store is its verdict on what is in sight of the store. -/
theorem TokenTest.run_eq {test : TokenTest τ ν} (scopeless : test.Scopeless)
    (capture : Option String) (token : τ) (captures : Captures ν) :
    test.run capture token captures =
      (test.verdict token captures.snapshot).map (Verdict.store capture token captures) := by
  have hkeep : ∀ passes : Bool, TokenTest.run.keep capture token captures passes =
      Verdict.store capture token captures (if passes then .accept else .reject) := by
    intro passes
    cases passes <;> rfl
  cases test with
  | literal value =>
    rw [TokenTest.run, TokenTest.verdict, hkeep]
    by_cases h : value = token
    · rw [if_pos h, if_pos (decide_eq_true h)]
      rfl
    · rw [if_neg h, if_neg (by simpa using h)]
      rfl
  | back name =>
    rw [TokenTest.run, TokenTest.verdict, Captures.get, Captures.find?_eq_lookup]
    cases captures.snapshot.lookup name with
    | none => rfl
    | some value => exact congrArg Except.ok (hkeep _)
  | oneOf options =>
    rw [TokenTest.run, TokenTest.verdict, hkeep]
    by_cases h : token ∈ options
    · rw [if_pos h, if_pos (List.contains_iff_mem.mpr h)]
      rfl
    · rw [if_neg h, if_neg (by simpa using h)]
      rfl
  | predicate decide =>
    have hdecide : decide captures token = decide (.ofBindings captures.snapshot) token :=
      scopeless captures token
    rw [TokenTest.run, TokenTest.verdict, hdecide]
    cases decide (.ofBindings captures.snapshot) token with
    | error error => rfl
    | ok verdict => cases verdict <;> rfl

end StackCode
