import StackCode.Proofs.Outcome
import StackCode.Proofs.Pattern.Store

/-!
Stores whose scopes are maps.

A store can keep the bindings of each scope in a map, and its scopes from the base scope inwards, so
that a token says how many scopes are below the one that it names.  Whatever is done to such a
store, there is a store of lists with the same scopes that can be made as well.
-/

namespace StackCode

namespace Captures

variable {ν : Type}

/-! ## All scopes in order -/

/-- All scopes, the innermost first and the base scope, which has the id 0, last. -/
def layers (captures : Captures ν) : List (Scope ν) :=
  captures.scopes ++ [{ id := 0, bindings := captures.base }]

theorem find?_eq_findSome? (captures : Captures ν) (name : String) :
    captures.find? name = captures.layers.findSome? fun scope => scope.bindings.lookup name := by
  rw [layers, List.findSome?_append, List.findSome?_singleton]
  rfl

/-- A binding goes to the innermost scope, be it the base scope. -/
theorem layers_bind {captures : Captures ν} {scope : Scope ν} {below : List (Scope ν)}
    (h : captures.layers = scope :: below) (name : String) (value : ν) :
    (captures.bind name value).layers =
      { scope with bindings := (name, value) :: scope.bindings } :: below := by
  obtain ⟨base, scopes, fresh⟩ := captures
  cases scopes with
  | nil =>
    cases h
    rfl
  | cons inner scopes =>
    cases h
    rfl

end Captures

/-! ## Stores of maps -/

/-- Names an open scope by its id and by the number of scopes below it. -/
structure PlacedToken where
  depth : Nat
  id : Nat

structure MappedScope (ν : Type) where
  id : Nat
  bindings : Std.HashMap String ν

/-- A stack of scopes, the base scope first and the innermost one last. -/
structure MappedCaptures (ν : Type) where
  scopes : List (MappedScope ν)
  /-- The id of the next scope. -/
  fresh : Nat

namespace MappedCaptures

variable {ν : Type}

def empty : MappedCaptures ν := { scopes := [{ id := 0, bindings := ∅ }], fresh := 1 }

def enter (kept : MappedCaptures ν) : PlacedToken × MappedCaptures ν :=
  ({ depth := kept.scopes.length, id := kept.fresh },
    { scopes := kept.scopes ++ [{ id := kept.fresh, bindings := ∅ }], fresh := kept.fresh + 1 })

/-- Closes the innermost scope, which must be the one that `token` names and not the base scope. -/
def exit (kept : MappedCaptures ν) (token : PlacedToken) : Except Error (MappedCaptures ν) :=
  match kept.scopes.getLast? with
  | some scope =>
    if 0 < token.depth ∧ token.depth = kept.scopes.length - 1 ∧ scope.id = token.id then
      .ok { kept with scopes := kept.scopes.dropLast }
    else .error .scopeMismatch
  | none => .error .scopeMismatch

/-- Closes the scope that `token` names, unless it is the base scope, and all scopes inside it. -/
def unwind (kept : MappedCaptures ν) (token : PlacedToken) : MappedCaptures ν :=
  match kept.scopes[token.depth]? with
  | some scope =>
    if 0 < token.depth ∧ scope.id = token.id then
      { kept with scopes := kept.scopes.take token.depth }
    else kept
  | none => kept

def bind (kept : MappedCaptures ν) (name : String) (value : ν) : MappedCaptures ν :=
  match kept.scopes.getLast? with
  | some scope =>
    let scope := { scope with bindings := scope.bindings.insert name value }
    { kept with scopes := kept.scopes.dropLast ++ [scope] }
  | none => kept

def bindAll (kept : MappedCaptures ν) (bindings : List (String × ν)) : MappedCaptures ν :=
  match kept.scopes.getLast? with
  | some scope =>
    let scope := { scope with bindings := scope.bindings.insertMany bindings }
    { kept with scopes := kept.scopes.dropLast ++ [scope] }
  | none => kept

/-- The innermost binding of `name`. -/
def find? (kept : MappedCaptures ν) (name : String) : Option ν :=
  kept.scopes.reverse.findSome? fun scope => scope.bindings[name]?

def get (kept : MappedCaptures ν) (name : String) : Except Error ν :=
  match kept.find? name with
  | some value => .ok value
  | none => .error (.unboundCapture name)

def isBound (kept : MappedCaptures ν) (name : String) : Bool := (kept.find? name).isSome

/-- A store that operations can make of a new one.  The tokens may be any tokens, and an exit that
fails leaves the store alone. -/
inductive Reachable : MappedCaptures ν → Prop where
  | empty : Reachable empty
  | enter {kept : MappedCaptures ν} (h : Reachable kept) : Reachable kept.enter.2
  | exit {kept closed : MappedCaptures ν} (h : Reachable kept) (token : PlacedToken)
    (hexit : kept.exit token = .ok closed) : Reachable closed
  | unwind {kept : MappedCaptures ν} (h : Reachable kept) (token : PlacedToken) :
    Reachable (kept.unwind token)
  | bind {kept : MappedCaptures ν} (h : Reachable kept) (name : String) (value : ν) :
    Reachable (kept.bind name value)
  | bindAll {kept : MappedCaptures ν} (h : Reachable kept) (bindings : List (String × ν)) :
    Reachable (kept.bindAll bindings)

/-! ## Maps and lists of bindings in step -/

/-- Both scopes have the same id and the same bindings. -/
structure Holds (held : MappedScope ν) (scope : Scope ν) : Prop where
  id : held.id = scope.id
  bindings : ∀ name : String, held.bindings[name]? = scope.bindings.lookup name

/-- Both stores have the same scopes. -/
structure InStep (kept : MappedCaptures ν) (captures : Captures ν) : Prop where
  scopes : List.Forall₂ Holds kept.scopes.reverse captures.layers
  fresh : kept.fresh = captures.fresh

variable {kept : MappedCaptures ν} {captures : Captures ν}

theorem holds_new (id : Nat) :
    Holds ({ id := id, bindings := ∅ } : MappedScope ν) { id := id, bindings := [] } where
  id := rfl
  bindings _ := Std.HashMap.getElem?_empty

theorem inStep_empty : InStep (empty : MappedCaptures ν) .empty where
  scopes := .cons (holds_new 0) .nil
  fresh := rfl

theorem InStep.enter (h : kept.InStep captures) : InStep kept.enter.2 captures.enter.2 where
  scopes := by
    show List.Forall₂ Holds (kept.scopes ++ [_]).reverse (_ :: captures.layers)
    rw [List.reverse_append, List.reverse_singleton, List.singleton_append, h.fresh]
    exact .cons (holds_new captures.fresh) h.scopes
  fresh := congrArg (· + 1) h.fresh

/-- The innermost scope and those below it. -/
theorem InStep.innermost (h : kept.InStep captures) :
    ∃ front held scope below, kept.scopes = front ++ [held] ∧ captures.layers = scope :: below ∧
      Holds held scope ∧ List.Forall₂ Holds front.reverse below := by
  have hscopes := h.scopes
  cases hlayers : captures.layers with
  | nil => exact absurd hlayers (List.append_ne_nil_of_right_ne_nil _ (List.cons_ne_nil _ _))
  | cons scope below =>
    rw [hlayers] at hscopes
    obtain ⟨held, rest, hheld, hrest, hkept⟩ := List.forall₂_cons_right_iff.mp hscopes
    refine ⟨rest.reverse, held, scope, below, List.reverse_eq_cons_iff.mp hkept, rfl, hheld, ?_⟩
    rw [List.reverse_reverse]
    exact hrest

theorem bind_eq {front : List (MappedScope ν)} {held : MappedScope ν}
    (hkept : kept.scopes = front ++ [held]) (name : String) (value : ν) :
    kept.bind name value = { kept with
      scopes := front ++ [{ held with bindings := held.bindings.insert name value }] } := by
  rw [bind, hkept, List.getLast?_concat, List.dropLast_concat]

theorem bindAll_eq {front : List (MappedScope ν)} {held : MappedScope ν}
    (hkept : kept.scopes = front ++ [held]) (bindings : List (String × ν)) :
    kept.bindAll bindings = { kept with
      scopes := front ++ [{ held with bindings := held.bindings.insertMany bindings }] } := by
  rw [bindAll, hkept, List.getLast?_concat, List.dropLast_concat]

theorem InStep.bind (h : kept.InStep captures) (name : String) (value : ν) :
    InStep (kept.bind name value) (captures.bind name value) := by
  obtain ⟨front, held, scope, below, hkept, hlayers, hheld, hbelow⟩ := h.innermost
  have hbound : Holds { held with bindings := held.bindings.insert name value }
      { scope with bindings := (name, value) :: scope.bindings } := by
    refine ⟨hheld.id, fun other => ?_⟩
    rw [Std.HashMap.getElem?_insert, hheld.bindings, List.lookup_cons, Bool.beq_comm]
    cases other == name <;> rfl
  rw [bind_eq hkept]
  refine ⟨?_, h.fresh.trans (captures.ids_bind name value).2.symm⟩
  rw [Captures.layers_bind hlayers, List.reverse_append]
  exact .cons hbound hbelow

/-- Merging bindings is binding them one after the other. -/
theorem InStep.bindAll (bindings : List (String × ν)) :
    ∀ {kept : MappedCaptures ν} {captures : Captures ν}, kept.InStep captures →
      InStep (kept.bindAll bindings) (captures.bindAll bindings) := by
  induction bindings with
  | nil =>
    intro kept captures h
    obtain ⟨front, held, -, -, hkept, -⟩ := h.innermost
    rw [bindAll_eq hkept, Std.HashMap.insertMany_nil, ← hkept]
    exact h
  | cons binding rest ih =>
    intro kept captures h
    obtain ⟨front, held, -, -, hkept, -⟩ := h.innermost
    have hmerged := ih (h.bind binding.1 binding.2)
    rw [bind_eq hkept, bindAll_eq rfl, ← Std.HashMap.insertMany_cons] at hmerged
    rw [bindAll_eq hkept]
    exact hmerged

/-! ## Closing scopes -/

/-- A scope that is not the base scope can be closed, with those inside it, in both stores. -/
theorem InStep.close (h : kept.InStep captures) {front inner : List (MappedScope ν)}
    {held : MappedScope ν} (hkept : kept.scopes = front ++ held :: inner) (hfront : front ≠ []) :
    ∃ within scope below, captures.scopes = within ++ scope :: below ∧ held.id = scope.id ∧
      within.length = inner.length ∧
      InStep { kept with scopes := front } { captures with scopes := below } := by
  have hscopes := h.scopes
  rw [hkept, List.reverse_append, List.reverse_cons, List.append_assoc,
    List.singleton_append] at hscopes
  obtain ⟨within, reached, hwithin, hreached, hlayers⟩ := Outcome.forall₂_append_iff.mp hscopes
  obtain ⟨scope, rest, hheld, hrest, rfl⟩ := List.forall₂_cons_left_iff.mp hreached
  have hlength : within.length = inner.length := by
    rw [← hwithin.length_eq, List.length_reverse]
  -- At least the base scope is below, which is in the layers but not among the scopes to be closed.
  rcases List.eq_nil_or_concat rest with rfl | ⟨below, base, rfl⟩
  · exact absurd (List.reverse_eq_nil_iff.mp (List.forall₂_nil_right_iff.mp hrest)) hfront
  · rw [List.concat_eq_append] at hlayers hrest
    rw [← List.cons_append, ← List.append_assoc, Captures.layers] at hlayers
    obtain ⟨hopen, hbase⟩ := List.append_singleton_inj.mp hlayers
    rw [hbase] at hrest
    exact ⟨within, scope, below, hopen.symm, hheld.id, hlength, hrest, h.fresh⟩

theorem InStep.exit (h : kept.InStep captures) {token : PlacedToken} {closed : MappedCaptures ν}
    (hexit : kept.exit token = .ok closed) :
    ∃ later, captures.exit { id := token.id } = .ok later ∧ closed.InStep later := by
  unfold MappedCaptures.exit at hexit
  split at hexit
  · rename_i held hlast
    split at hexit
    · rename_i howned
      obtain ⟨hdepth, hlength, hid⟩ := howned
      cases hexit
      obtain ⟨front, hkept⟩ := List.getLast?_eq_some_iff.mp hlast
      have hfront : front ≠ [] := by
        rintro rfl
        have hzero : token.depth = 0 := by simpa [hkept] using hlength
        omega
      obtain ⟨within, scope, below, hscopes, hscope, hwithin, hclosed⟩ := h.close hkept hfront
      rw [List.eq_nil_of_length_eq_zero hwithin, List.nil_append] at hscopes
      refine ⟨{ captures with scopes := below }, ?_, ?_⟩
      · rw [Captures.exit, hscopes]
        exact if_pos (hscope.symm.trans hid)
      · rw [hkept, List.dropLast_concat]
        exact hclosed
    · cases hexit
  · cases hexit

theorem InStep.unwind (h : kept.InStep captures) (hreach : captures.Reachable)
    (token : PlacedToken) :
    kept.unwind token = kept ∨
      InStep (kept.unwind token) (captures.unwind { id := token.id }) := by
  unfold MappedCaptures.unwind
  split
  · rename_i held hat
    split
    · rename_i howned
      obtain ⟨hdepth, hid⟩ := howned
      have hkept : kept.scopes =
          kept.scopes.take token.depth ++ held :: kept.scopes.drop (token.depth + 1) := by
        obtain ⟨hlt, rfl⟩ := List.getElem?_eq_some_iff.mp hat
        rw [← List.drop_eq_getElem_cons hlt, List.take_append_drop]
      have hfront : kept.scopes.take token.depth ≠ [] := by
        intro hnil
        rcases List.take_eq_nil_iff.mp hnil with hzero | hnone
        · omega
        · rw [hnone] at hat
          cases hat
      obtain ⟨within, scope, below, hscopes, hscope, -, hclosed⟩ := h.close hkept hfront
      right
      rw [← hid, hscope, hreach.unwind_eq hscopes]
      exact hclosed
    · exact Or.inl rfl
  · exact Or.inl rfl

/-- Whatever is done to a store of maps can be done to a store of lists. -/
theorem Reachable.exists_inStep (h : kept.Reachable) :
    ∃ captures : Captures ν, captures.Reachable ∧ kept.InStep captures := by
  induction h with
  | empty => exact ⟨.empty, ⟨[], rfl⟩, inStep_empty⟩
  | enter _ ih =>
    obtain ⟨captures, hreach, hstep⟩ := ih
    exact ⟨_, hreach.perform .enter, hstep.enter⟩
  | exit _ token hexit ih =>
    obtain ⟨captures, hreach, hstep⟩ := ih
    obtain ⟨later, hlater, hclosed⟩ := hstep.exit hexit
    refine ⟨later, ?_, hclosed⟩
    have hperform := hreach.perform (.exit { id := token.id })
    rw [Captures.perform, hlater] at hperform
    exact hperform
  | unwind _ token ih =>
    obtain ⟨captures, hreach, hstep⟩ := ih
    rcases hstep.unwind hreach token with hsame | hunwound
    · rw [hsame]
      exact ⟨captures, hreach, hstep⟩
    · exact ⟨_, hreach.perform (.unwind _), hunwound⟩
  | bind _ name value ih =>
    obtain ⟨captures, hreach, hstep⟩ := ih
    exact ⟨_, hreach.perform (.bind name value), hstep.bind name value⟩
  | bindAll _ bindings ih =>
    obtain ⟨captures, hreach, hstep⟩ := ih
    exact ⟨_, hreach.perform (.bindAll bindings), hstep.bindAll bindings⟩

end MappedCaptures
end StackCode
