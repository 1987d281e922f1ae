import StackCode.Error

/-!
Scoped captures.  Bindings live in a stack of scopes on top of a base scope that is always
there.  A scope is opened for each candidate of a match and closed when the candidate is given
up, so bindings made for it disappear with it.  A name means its innermost binding.
-/

namespace StackCode

/-- Bindings of one scope, the newest first. -/
abbrev Bindings (ν : Type) := List (String × ν)

/-- Names an open scope.  No two scopes of one store ever have the same id. -/
structure ScopeToken where
  id : Nat
  deriving DecidableEq, Repr, Inhabited

structure Scope (ν : Type) where
  id : Nat
  bindings : Bindings ν

/-- A stack of scopes. -/
structure Captures (ν : Type) where
  base : Bindings ν
  /-- The open scopes, the innermost first. -/
  scopes : List (Scope ν)
  /-- The id of the next scope. -/
  fresh : Nat

namespace Captures

variable {ν : Type}

/-- A store that only has its base scope. -/
def empty : Captures ν := { base := [], scopes := [], fresh := 1 }

/-- The number of open scopes. -/
def depth (captures : Captures ν) : Nat := captures.scopes.length

/-- Opens an innermost scope. -/
def enter (captures : Captures ν) : ScopeToken × Captures ν :=
  ({ id := captures.fresh },
    { captures with
      scopes := { id := captures.fresh, bindings := [] } :: captures.scopes
      fresh := captures.fresh + 1 })

/-- Closes the innermost scope, which must be the one that `token` names. -/
def exit (captures : Captures ν) (token : ScopeToken) : Except Error (Captures ν) :=
  match captures.scopes with
  | scope :: below =>
    if scope.id = token.id then .ok { captures with scopes := below } else .error .scopeMismatch
  | [] => .error .scopeMismatch

/-- Closes the scope that `token` names and all scopes inside it.  A token whose scope is closed
changes nothing. -/
def unwind (captures : Captures ν) (token : ScopeToken) : Captures ν :=
  match captures.scopes.dropWhile (·.id ≠ token.id) with
  | _ :: below => { captures with scopes := below }
  | [] => captures

/-- Binds `name` in the innermost scope. -/
def bind (captures : Captures ν) (name : String) (value : ν) : Captures ν :=
  match captures.scopes with
  | scope :: below =>
    { captures with scopes := { scope with bindings := (name, value) :: scope.bindings } :: below }
  | [] => { captures with base := (name, value) :: captures.base }

/-- Binds names one after the other in the innermost scope. -/
def bindAll (captures : Captures ν) (bindings : List (String × ν)) : Captures ν :=
  bindings.foldl (fun captures binding => captures.bind binding.1 binding.2) captures

/-- The innermost binding of `name`. -/
def find? (captures : Captures ν) (name : String) : Option ν :=
  (captures.scopes.findSome? fun scope => scope.bindings.lookup name).or
    (captures.base.lookup name)

def get (captures : Captures ν) (name : String) : Except Error ν :=
  match captures.find? name with
  | some value => .ok value
  | none => .error (.unboundCapture name)

def isBound (captures : Captures ν) (name : String) : Bool := (captures.find? name).isSome

/-! Opening, closing and binding. -/

theorem depth_enter (captures : Captures ν) : captures.enter.2.depth = captures.depth + 1 := rfl

/-- Closing a scope that was just opened gives the scopes back as they were. -/
theorem exit_enter (captures : Captures ν) :
    captures.enter.2.exit captures.enter.1 =
      .ok { captures with fresh := captures.fresh + 1 } := by
  simp [exit, enter]

theorem unwind_enter (captures : Captures ν) :
    captures.enter.2.unwind captures.enter.1 =
      { captures with fresh := captures.fresh + 1 } := by
  simp [unwind, enter]

/-- An opened scope hides nothing. -/
theorem find?_enter (captures : Captures ν) (name : String) :
    captures.enter.2.find? name = captures.find? name := by
  rw [find?, enter, List.findSome?_cons]
  rfl

theorem find?_bind_self (captures : Captures ν) (name : String) (value : ν) :
    (captures.bind name value).find? name = some value := by
  rw [bind]
  split
  · simp [find?]
  · rename_i h
    simp [find?, h]

theorem find?_bind_of_ne {name other : String} (h : other ≠ name) (captures : Captures ν)
    (value : ν) : (captures.bind name value).find? other = captures.find? other := by
  have skip : (other == name) = false := beq_eq_false_iff_ne.mpr h
  rw [bind]
  split
  · rename_i hs
    rw [find?, find?, hs, List.findSome?_cons, List.findSome?_cons, List.lookup_cons, skip]
  · rename_i hs
    rw [find?, find?, hs, List.lookup_cons, skip]

theorem depth_bind (captures : Captures ν) (name : String) (value : ν) :
    (captures.bind name value).depth = captures.depth := by
  rw [bind]
  split
  · rename_i h
    simp [depth, h]
  · rfl

end Captures

/-- Only the first binding of each name. -/
def Bindings.visible {ν : Type} : Bindings ν → Bindings ν
  | [] => []
  | binding :: rest => binding :: (Bindings.visible rest).filter (·.1 ≠ binding.1)

/-- Looking a name up only finds its first binding, so hiding the others changes nothing. -/
theorem Bindings.lookup_visible {ν : Type} (bindings : Bindings ν) (name : String) :
    (Bindings.visible bindings).lookup name = bindings.lookup name := by
  have hidden : ∀ (key : String) (rest : Bindings ν), name ≠ key →
      (rest.filter (·.1 ≠ key)).lookup name = rest.lookup name := by
    intro key rest h
    induction rest with
    | nil => rfl
    | cons binding rest ih =>
      rw [List.filter_cons]
      split
      · rw [List.lookup_cons, List.lookup_cons, ih]
      · rename_i same
        have skip : (name == binding.1) = false := by
          have : binding.1 = key := by simpa using same
          exact beq_eq_false_iff_ne.mpr (this ▸ h)
        rw [List.lookup_cons, skip, ih]
  induction bindings with
  | nil => rfl
  | cons binding rest ih =>
    rw [visible, List.lookup_cons, List.lookup_cons]
    split
    · rfl
    · rename_i h
      rw [hidden binding.1 _ (beq_eq_false_iff_ne.mp h), ih]

/-- The innermost binding of each name that is bound. -/
def Captures.snapshot {ν : Type} (captures : Captures ν) : Bindings ν :=
  Bindings.visible (captures.scopes.flatMap Scope.bindings ++ captures.base)

end StackCode
