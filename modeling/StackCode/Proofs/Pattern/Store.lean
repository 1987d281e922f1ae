import StackCode.Proofs.Pattern.Scopes

/-!
What operations do to a store of captures.

Whatever is done to a store, it opens a scope, closes some of the innermost ones or binds names in
the innermost one.  A scope that lies on top of others is closed before any of those is touched, and
its id is not given to a scope again.
-/

namespace StackCode

/-- What can be done to a store.  The tokens may be any tokens: scopes need not be closed in turn,
and some may be closed already. -/
inductive StoreOp (ν : Type) where
  | enter
  | exit (token : ScopeToken)
  | unwind (token : ScopeToken)
  | bind (name : String) (value : ν)
  | bindAll (bindings : List (String × ν))

namespace Captures

variable {ν : Type}

/-- The store behind an operation.  One that fails leaves the store alone. -/
def perform (captures : Captures ν) : StoreOp ν → Captures ν
  | .enter => captures.enter.2
  | .exit token =>
    match captures.exit token with
    | .ok closed => closed
    | .error _ => captures
  | .unwind token => captures.unwind token
  | .bind name value => captures.bind name value
  | .bindAll bindings => captures.bindAll bindings

/-- The store behind operations that are performed one after the other. -/
def performAll (captures : Captures ν) (ops : List (StoreOp ν)) : Captures ν :=
  ops.foldl perform captures

/-- A store that operations can make of a new one. -/
def Reachable (captures : Captures ν) : Prop :=
  ∃ ops, captures = empty.performAll ops

/-- From `captures` on, more than `depth` scopes are open all the time. -/
def StaysAbove (depth : Nat) : Captures ν → List (StoreOp ν) → Prop
  | captures, [] => depth < captures.depth
  | captures, op :: rest => depth < captures.depth ∧ StaysAbove depth (captures.perform op) rest

instance decidableStaysAbove (depth : Nat) : ∀ (captures : Captures ν) (ops : List (StoreOp ν)),
    Decidable (captures.StaysAbove depth ops)
  | captures, [] => inferInstanceAs (Decidable (depth < captures.depth))
  | captures, op :: rest =>
    have := decidableStaysAbove depth (captures.perform op) rest
    inferInstanceAs (Decidable (depth < captures.depth ∧ _))

/-- The scope that is opened in `outer` is still open behind the operations: there never were as few
scopes again as before. -/
def StillOpen (outer : Captures ν) (ops : List (StoreOp ν)) : Prop :=
  outer.enter.2.StaysAbove outer.depth ops

instance (outer : Captures ν) (ops : List (StoreOp ν)) : Decidable (outer.StillOpen ops) :=
  decidableStaysAbove _ _ _

/-! ## Single operations -/

/-- The ways in which an operation changes a store. -/
inductive Step (captures : Captures ν) : Captures ν → Prop where
  | opened : Step captures captures.enter.2
  | closed {rest : List (Scope ν)} (h : rest <:+ captures.scopes) :
    Step captures { captures with scopes := rest }
  | bound (bindings : List (String × ν)) : Step captures (captures.bindAll bindings)

/-- Unwinding closes some of the innermost scopes, or none. -/
theorem unwind_closes (captures : Captures ν) (token : ScopeToken) :
    ∃ rest, rest <:+ captures.scopes ∧
      captures.unwind token = { captures with scopes := rest } := by
  unfold unwind
  split
  · rename_i scope below hdrop
    have hbehind : scope :: below <:+ captures.scopes := hdrop ▸ List.dropWhile_suffix _
    exact ⟨below, (List.suffix_cons scope below).trans hbehind, rfl⟩
  · exact ⟨captures.scopes, List.suffix_refl _, rfl⟩

theorem exit_closes {captures closed : Captures ν} {token : ScopeToken}
    (h : captures.exit token = .ok closed) :
    ∃ rest, rest <:+ captures.scopes ∧ closed = { captures with scopes := rest } := by
  unfold exit at h
  split at h
  · rename_i scope below hscopes
    split at h
    · cases h
      exact ⟨below, hscopes ▸ List.suffix_cons scope below, rfl⟩
    · cases h
  · cases h

theorem step_perform (captures : Captures ν) (op : StoreOp ν) :
    captures.Step (captures.perform op) := by
  cases op with
  | enter => exact .opened
  | exit token =>
    rw [perform]
    split
    · rename_i closed h
      obtain ⟨rest, hrest, rfl⟩ := exit_closes h
      exact .closed hrest
    · exact .closed (List.suffix_refl captures.scopes)
  | unwind token =>
    obtain ⟨rest, hrest, hunwind⟩ := captures.unwind_closes token
    rw [perform, hunwind]
    exact .closed hrest
  | bind name value => exact .bound [(name, value)]
  | bindAll bindings => exact .bound bindings

/-- What no single operation ends is not ended by any number of them. -/
theorem performAll_keeps {P : Captures ν → Prop}
    (hstep : ∀ {captures next : Captures ν}, P captures → captures.Step next → P next)
    (ops : List (StoreOp ν)) : ∀ {captures : Captures ν}, P captures →
      P (captures.performAll ops) := by
  induction ops with
  | nil => exact fun h => h
  | cons op rest ih =>
    intro captures h
    exact ih (hstep h (captures.step_perform op))

theorem Reachable.perform {captures : Captures ν} (h : captures.Reachable) (op : StoreOp ν) :
    (captures.perform op).Reachable := by
  obtain ⟨ops, rfl⟩ := h
  exact ⟨ops ++ [op], by rw [performAll, performAll, List.foldl_append]; rfl⟩

theorem ids_bind (captures : Captures ν) (name : String) (value : ν) :
    (captures.bind name value).scopes.map Scope.id = captures.scopes.map Scope.id ∧
      (captures.bind name value).fresh = captures.fresh := by
  obtain ⟨base, scopes, fresh⟩ := captures
  cases scopes with
  | nil => exact ⟨rfl, rfl⟩
  | cons scope below => exact ⟨rfl, rfl⟩

/-- Binding changes no scope's place or id. -/
theorem ids_bindAll (bindings : List (String × ν)) : ∀ captures : Captures ν,
    (captures.bindAll bindings).scopes.map Scope.id = captures.scopes.map Scope.id ∧
      (captures.bindAll bindings).fresh = captures.fresh := by
  induction bindings with
  | nil => exact fun _ => ⟨rfl, rfl⟩
  | cons binding rest ih =>
    intro captures
    obtain ⟨hids, hfresh⟩ := ih (captures.bind binding.1 binding.2)
    obtain ⟨hbind, hkept⟩ := captures.ids_bind binding.1 binding.2
    exact ⟨hids.trans hbind, hfresh.trans hkept⟩

/-! ## The base scope -/

theorem base_bindAll (bindings : List (String × ν)) : ∀ captures : Captures ν,
    captures.base <:+ (captures.bindAll bindings).base := by
  induction bindings with
  | nil => exact fun captures => List.suffix_refl captures.base
  | cons binding rest ih =>
    intro captures
    have hbind : captures.base <:+ (captures.bind binding.1 binding.2).base := by
      obtain ⟨base, scopes, fresh⟩ := captures
      cases scopes with
      | nil => exact List.suffix_cons binding base
      | cons scope below => exact List.suffix_refl base
    exact hbind.trans (ih _)

theorem base_step {captures next : Captures ν} (h : captures.Step next) :
    captures.base <:+ next.base := by
  cases h with
  | opened => exact List.suffix_refl captures.base
  | closed _ => exact List.suffix_refl captures.base
  | bound bindings => exact base_bindAll bindings captures

/-- Nothing that is bound in the base scope is ever dropped. -/
theorem base_performAll (captures : Captures ν) (ops : List (StoreOp ν)) :
    captures.base <:+ (captures.performAll ops).base := by
  apply performAll_keeps (P := fun later => captures.base <:+ later.base)
  · intro later next hkept hstep
    exact hkept.trans (base_step hstep)
  · exact List.suffix_refl captures.base

/-! ## Ids -/

/-- The next scope gets an id above those of all open ones. -/
def Numbered (captures : Captures ν) : Prop :=
  ∀ id ∈ captures.scopes.map Scope.id, id < captures.fresh

theorem Numbered.step {captures next : Captures ν} (h : captures.Numbered)
    (hstep : captures.Step next) : next.Numbered := by
  cases hstep with
  | opened =>
    intro id hid
    show id < captures.fresh + 1
    have hid : id ∈ captures.fresh :: captures.scopes.map Scope.id := hid
    rcases List.mem_cons.mp hid with hid | hid
    · omega
    · have := h id hid
      omega
  | closed hrest =>
    intro id hid
    exact h id ((hrest.map Scope.id).subset hid)
  | bound bindings =>
    obtain ⟨hids, hfresh⟩ := ids_bindAll bindings captures
    intro id hid
    rw [hids] at hid
    rw [hfresh]
    exact h id hid

theorem numbered_empty : (empty : Captures ν).Numbered :=
  fun _ hid => absurd hid List.not_mem_nil

theorem Reachable.numbered {captures : Captures ν} (h : captures.Reachable) :
    captures.Numbered := by
  obtain ⟨ops, rfl⟩ := h
  exact performAll_keeps Numbered.step ops numbered_empty

/-- Scopes have smaller ids than those that are opened inside them. -/
theorem Reachable.ids_decrease {captures : Captures ν} (h : captures.Reachable) :
    (captures.scopes.map Scope.id).Pairwise (· > ·) := by
  obtain ⟨ops, rfl⟩ := h
  -- That an opened scope gets the greatest id is part of what every operation keeps.
  refine (performAll_keeps (P := fun captures : Captures ν => captures.Numbered ∧
    (captures.scopes.map Scope.id).Pairwise (· > ·)) ?_ ops ⟨numbered_empty, .nil⟩).2
  intro captures next ⟨hnumbered, hids⟩ hstep
  refine ⟨hnumbered.step hstep, ?_⟩
  cases hstep with
  | opened => exact List.Pairwise.cons hnumbered hids
  | closed hrest => exact hids.sublist (hrest.map Scope.id).sublist
  | bound bindings =>
    rw [(ids_bindAll bindings captures).1]
    exact hids

/-- Closing a scope closes those inside it, which have greater ids. -/
theorem Reachable.unwind_eq {captures : Captures ν} (h : captures.Reachable)
    {within below : List (Scope ν)} {scope : Scope ν}
    (hscopes : captures.scopes = within ++ scope :: below) :
    captures.unwind { id := scope.id } = { captures with scopes := below } := by
  have hids := h.ids_decrease
  rw [hscopes, List.pairwise_map, List.pairwise_append] at hids
  have hwithin : ∀ inner ∈ within, scope.id < inner.id :=
    fun inner hinner => hids.2.2 inner hinner scope List.mem_cons_self
  have hatop : captures = atop { captures with scopes := below }
      (within ++ [{ id := scope.id, bindings := scope.bindings }]) captures.fresh := by
    unfold atop
    rw [List.append_assoc, List.singleton_append, ← hscopes]
  have hunwind := unwind_atop { captures with scopes := below } hwithin scope.bindings []
    captures.fresh
  rw [← hatop] at hunwind
  exact hunwind

/-! ## A scope and the floor below it -/

/-- The scope with this id is open on top of the floor, and others may be inside it. -/
def OnFloor (floor : Captures ν) (id : Nat) (captures : Captures ν) : Prop :=
  ∃ inner own fresh, captures = floor.atop (inner ++ [{ id := id, bindings := own }]) fresh ∧
    (∀ scope ∈ inner, id < scope.id) ∧ id < fresh

/-- The id is that of no open scope, and it is not given to a scope again. -/
def Retired (id : Nat) (captures : Captures ν) : Prop :=
  id ∉ captures.scopes.map Scope.id ∧ id < captures.fresh

theorem Retired.step {id : Nat} {captures next : Captures ν} (h : captures.Retired id)
    (hstep : captures.Step next) : next.Retired id := by
  obtain ⟨habsent, hlt⟩ := h
  cases hstep with
  | opened =>
    refine ⟨?_, Nat.lt_succ_of_lt hlt⟩
    show id ∉ captures.fresh :: captures.scopes.map Scope.id
    exact List.not_mem_cons_of_ne_of_not_mem (Nat.ne_of_lt hlt) habsent
  | closed hrest => exact ⟨fun hid => habsent ((hrest.map Scope.id).subset hid), hlt⟩
  | bound bindings =>
    obtain ⟨hids, hfresh⟩ := ids_bindAll bindings captures
    unfold Retired
    rw [hids, hfresh]
    exact ⟨habsent, hlt⟩

theorem Retired.performAll {id : Nat} {captures : Captures ν} (h : captures.Retired id)
    (ops : List (StoreOp ν)) : (captures.performAll ops).Retired id :=
  performAll_keeps Retired.step ops h

theorem OnFloor.depth_lt {floor captures : Captures ν} {id : Nat} (h : floor.OnFloor id captures) :
    floor.depth < captures.depth := by
  obtain ⟨inner, own, fresh, rfl, -, -⟩ := h
  simp only [depth, atop, List.length_append, List.length_singleton]
  omega

/-- A suffix either keeps the scope at the bottom of the others or is a part of the floor. -/
theorem suffix_cases {inner below rest : List (Scope ν)} {scope : Scope ν}
    (h : rest <:+ inner ++ [scope] ++ below) :
    rest <:+ below ∨ ∃ kept, kept <:+ inner ∧ rest = kept ++ [scope] ++ below := by
  have hwhole : scope :: below <:+ inner ++ [scope] ++ below := by
    rw [List.append_assoc]
    exact List.suffix_append inner _
  rcases Nat.lt_or_ge rest.length (scope :: below).length with hlt | hge
  · left
    have hshort : rest <:+ scope :: below :=
      List.suffix_of_suffix_length_le h hwhole (Nat.le_of_lt hlt)
    rcases List.suffix_cons_iff.mp hshort with heq | hbelow
    · rw [heq] at hlt
      exact absurd hlt (Nat.lt_irrefl _)
    · exact hbelow
  · right
    obtain ⟨kept, hkept⟩ := List.suffix_of_suffix_length_le hwhole h hge
    obtain ⟨gone, hgone⟩ := h
    refine ⟨kept, ⟨gone, ?_⟩, ?_⟩
    · rw [← hkept, ← List.append_assoc, List.append_assoc inner] at hgone
      exact List.append_cancel_right hgone
    · rw [← hkept, List.append_assoc]
      rfl

/-- An operation leaves the scope open on top of the floor, or closes it for good. -/
theorem OnFloor.step {floor captures next : Captures ν} {id : Nat}
    (hfloor : ∀ other ∈ floor.scopes.map Scope.id, other < id)
    (h : floor.OnFloor id captures) (hstep : captures.Step next) :
    floor.OnFloor id next ∨ next.depth ≤ floor.depth ∧ next.Retired id := by
  obtain ⟨inner, own, fresh, rfl, hinner, hlt⟩ := h
  cases hstep with
  | opened =>
    left
    exact ⟨{ id := fresh, bindings := [] } :: inner, own, fresh + 1, rfl,
      List.forall_mem_cons.mpr ⟨hlt, hinner⟩, Nat.lt_succ_of_lt hlt⟩
  | closed hrest =>
    rcases suffix_cases hrest with hbelow | ⟨kept, hkept, rfl⟩
    · right
      refine ⟨hbelow.length_le, fun hid => ?_, hlt⟩
      exact absurd (hfloor id ((hbelow.map Scope.id).subset hid)) (Nat.lt_irrefl id)
    · left
      exact ⟨kept, own, fresh, rfl, fun scope hscope => hinner scope (hkept.subset hscope), hlt⟩
  | bound bindings =>
    left
    -- The bindings go to the innermost scope, which is the one on the floor if it is alone.
    cases inner with
    | nil =>
      obtain ⟨bound, hbound⟩ := floor.bindAll_atop id fresh [] bindings own
      exact ⟨[], bound, fresh, hbound, List.forall_mem_nil _, hlt⟩
    | cons scope inner =>
      obtain ⟨hscope, hinner⟩ := List.forall_mem_cons.mp hinner
      obtain ⟨bound, hbound⟩ := floor.bindAll_atop scope.id fresh
        (inner ++ [{ id := id, bindings := own }]) bindings scope.bindings
      exact ⟨{ id := scope.id, bindings := bound } :: inner, own, fresh, hbound,
        List.forall_mem_cons.mpr ⟨hscope, hinner⟩, hlt⟩

/-- A scope that stays open lies on the floor all the time, and one that does not is closed for
good. -/
theorem OnFloor.performAll {floor : Captures ν} {id : Nat}
    (hfloor : ∀ other ∈ floor.scopes.map Scope.id, other < id) (ops : List (StoreOp ν)) :
    ∀ {captures : Captures ν}, floor.OnFloor id captures →
      captures.StaysAbove floor.depth ops ∧ floor.OnFloor id (captures.performAll ops) ∨
        ¬captures.StaysAbove floor.depth ops ∧ (captures.performAll ops).Retired id := by
  induction ops with
  | nil => exact fun h => Or.inl ⟨h.depth_lt, h⟩
  | cons op rest ih =>
    intro captures h
    rcases h.step hfloor (captures.step_perform op) with hnext | ⟨hle, hretired⟩
    · rcases ih hnext with ⟨hstays, hlast⟩ | ⟨hnot, hlast⟩
      · exact Or.inl ⟨⟨h.depth_lt, hstays⟩, hlast⟩
      · exact Or.inr ⟨fun hstays => hnot hstays.2, hlast⟩
    · right
      refine ⟨fun hstays => ?_, hretired.performAll rest⟩
      have hlow : ¬(captures.perform op).StaysAbove floor.depth rest := by
        cases rest with
        | nil => exact Nat.not_lt.mpr hle
        | cons _ _ => exact fun hstays => absurd hstays.1 (Nat.not_lt.mpr hle)
      exact hlow hstays.2

/-- A scope that was just opened lies on the floor. -/
theorem onFloor_enter (floor : Captures ν) : floor.OnFloor floor.fresh floor.enter.2 :=
  ⟨[], [], floor.fresh + 1, rfl, List.forall_mem_nil _, Nat.lt_succ_self _⟩

/-- Behind operations, the scope that was opened in `outer` is still open and lies on it, or it is
closed for good. -/
theorem Reachable.onFloor_or_retired {outer : Captures ν} (h : outer.Reachable)
    (ops : List (StoreOp ν)) :
    outer.StillOpen ops ∧ outer.OnFloor outer.fresh (outer.enter.2.performAll ops) ∨
      ¬outer.StillOpen ops ∧ (outer.enter.2.performAll ops).Retired outer.fresh :=
  OnFloor.performAll h.numbered ops outer.onFloor_enter

end Captures
end StackCode
