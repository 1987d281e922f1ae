import StackCode.Proofs.Pattern.MappedScopes

/-!
Names looked up in a store, and in its bindings flattened.

A name is looked up from the innermost scope outwards.  Flattened, the bindings are laid over one
another from the base scope inwards, so that what is bound further inside replaces what was there.
Both give the same value, and they do so in a store whose scopes are maps as well, in whatever order
such a map hands out its bindings.
-/

namespace StackCode

/-! ## Ways to look a name up -/

/-- What a store says about names. -/
structure Lookups (ν : Type) where
  /-- The value of a name in the flattened bindings. -/
  flattened : String → Option ν
  find? : String → Option ν
  isBound : String → Bool
  get : String → Except Error ν
  /-- What is found right after bindings are merged into the store. -/
  findMerged : List (String × ν) → String → Option ν

/-- All ways to look a name up agree, and merged bindings replace what was there. -/
structure Lookups.Agree {ν : Type} (lookups : Lookups ν) : Prop where
  flattened : ∀ name, lookups.flattened name = lookups.find? name
  isBound : ∀ name, lookups.isBound name = (lookups.flattened name).isSome
  get : ∀ name, lookups.get name =
    match lookups.flattened name with
    | some value => .ok value
    | none => .error (.unboundCapture name)
  /-- Of the bindings of a name that are merged, the last one counts. -/
  merged : ∀ before name value behind, name ∉ behind.map Prod.fst →
    lookups.findMerged (before ++ (name, value) :: behind) name = some value
  /-- A name that is not among the merged ones keeps its value. -/
  unmerged : ∀ bindings name, name ∉ bindings.map Prod.fst →
    lookups.findMerged bindings name = lookups.find? name

namespace Captures

variable {ν : Type}

def lookups (captures : Captures ν) : Lookups ν where
  flattened name := captures.snapshot.lookup name
  find? := captures.find?
  isBound := captures.isBound
  get := captures.get
  findMerged bindings := (captures.bindAll bindings).find?

theorem find?_bindAll_of_not_mem {name : String} (bindings : List (String × ν)) :
    ∀ captures : Captures ν, name ∉ bindings.map Prod.fst →
      (captures.bindAll bindings).find? name = captures.find? name := by
  induction bindings with
  | nil => exact fun _ _ => rfl
  | cons binding rest ih =>
    intro captures h
    obtain ⟨hne, hrest⟩ := List.ne_and_not_mem_of_not_mem_cons h
    have hbind := find?_bind_of_ne hne captures binding.2
    exact (ih (captures.bind binding.1 binding.2) hrest).trans hbind

theorem bindAll_append (captures : Captures ν) (before behind : List (String × ν)) :
    captures.bindAll (before ++ behind) = (captures.bindAll before).bindAll behind :=
  List.foldl_append

theorem find?_bindAll_last (captures : Captures ν) (before : List (String × ν)) {name : String}
    (value : ν) {behind : List (String × ν)} (h : name ∉ behind.map Prod.fst) :
    (captures.bindAll (before ++ (name, value) :: behind)).find? name = some value := by
  rw [bindAll_append]
  show (((captures.bindAll before).bind name value).bindAll behind).find? name = _
  rw [find?_bindAll_of_not_mem behind _ h, find?_bind_self]

/-- The flattened bindings have each name once. -/
theorem nodup_visible (bindings : Bindings ν) :
    ((Bindings.visible bindings).map Prod.fst).Nodup := by
  induction bindings with
  | nil => exact List.nodup_nil
  | cons binding rest ih =>
    rw [Bindings.visible, List.map_cons, List.nodup_cons]
    constructor
    · intro hmem
      obtain ⟨other, hother, hsame⟩ := List.mem_map.mp hmem
      exact of_decide_eq_true (List.mem_filter.mp hother).2 hsame
    · exact ih.sublist (List.filter_sublist.map Prod.fst)

theorem agree_lookups (captures : Captures ν) : captures.lookups.Agree where
  flattened name := (captures.find?_eq_lookup name).symm
  isBound name := congrArg Option.isSome (captures.find?_eq_lookup name)
  get name := by
    show captures.get name = _
    rw [Captures.get, find?_eq_lookup]
    rfl
  merged before _ value _ h := captures.find?_bindAll_last before value h
  unmerged bindings _ h := find?_bindAll_of_not_mem bindings captures h

end Captures

namespace MappedCaptures

variable {ν : Type}

/-! ## From outside inwards and from inside outwards -/

/-- The bindings of all scopes in one map, in which those of each scope replace what was there.
`order` is the order in which a map hands out its bindings. -/
def snapshot (order : Std.HashMap String ν → List (String × ν)) (kept : MappedCaptures ν) :
    Std.HashMap String ν :=
  kept.scopes.foldl (fun flat scope => flat.insertMany (order scope.bindings)) ∅

def lookups (order : Std.HashMap String ν → List (String × ν)) (kept : MappedCaptures ν) :
    Lookups ν where
  flattened name := (kept.snapshot order)[name]?
  find? := kept.find?
  isBound := kept.isBound
  get := kept.get
  findMerged bindings := (kept.bindAll bindings).find?

/-- Each binding of a map is handed out once. -/
def Enumerates (order : Std.HashMap String ν → List (String × ν)) : Prop :=
  ∀ map, (order map).Perm map.toList

variable {order : Std.HashMap String ν → List (String × ν)} {kept : MappedCaptures ν}
  {captures : Captures ν}

/-- What a map hands out hides what it is laid over, whatever the order. -/
theorem getElem?_insertMany_order (horder : Enumerates order) (flat map : Std.HashMap String ν)
    (name : String) : (flat.insertMany (order map))[name]? = map[name]?.or flat[name]? := by
  cases hmap : map[name]? with
  | some value =>
    have hmem : (name, value) ∈ order map :=
      (horder map).mem_iff.mpr (Std.HashMap.mem_toList_iff_getElem?_eq_some.mpr hmap)
    have hdistinct : (order map).Pairwise fun a b => (a.1 == b.1) = false :=
      ((horder map).pairwise_iff fun h => BEq.symm_false h).mpr Std.HashMap.distinct_keys_toList
    exact Std.HashMap.getElem?_insertMany_list_of_mem BEq.rfl hdistinct hmem
  | none =>
    have habsent : ((order map).map Prod.fst).contains name = false := by
      rw [List.contains_eq_mem, decide_eq_false_iff_not]
      intro hmem
      obtain ⟨⟨key, value⟩, hbinding, rfl⟩ := List.mem_map.mp hmem
      have hbound := Std.HashMap.mem_toList_iff_getElem?_eq_some.mp
        ((horder map).mem_iff.mp hbinding)
      rw [hmap] at hbound
      cases hbound
    exact Std.HashMap.getElem?_insertMany_list_of_contains_eq_false habsent

theorem getElem?_foldl_insertMany (horder : Enumerates order) (name : String)
    (scopes : List (MappedScope ν)) : ∀ flat : Std.HashMap String ν,
      (scopes.foldl (fun flat scope => flat.insertMany (order scope.bindings)) flat)[name]? =
        (scopes.reverse.findSome? fun scope => scope.bindings[name]?).or flat[name]? := by
  induction scopes with
  | nil => exact fun _ => rfl
  | cons scope inner ih =>
    intro flat
    rw [List.foldl_cons, ih, getElem?_insertMany_order horder, List.reverse_cons,
      List.findSome?_append, List.findSome?_singleton, Option.or_assoc]

/-- Laid over one another from the base scope inwards, the bindings are what is found from the
innermost scope outwards. -/
theorem getElem?_snapshot (horder : Enumerates order) (kept : MappedCaptures ν) (name : String) :
    (kept.snapshot order)[name]? = kept.find? name := by
  rw [snapshot, getElem?_foldl_insertMany horder, Std.HashMap.getElem?_empty, Option.or_none]
  rfl

/-! ## The same answers -/

theorem findSome?_getElem? {helds : List (MappedScope ν)} {scopes : List (Scope ν)}
    (h : List.Forall₂ Holds helds scopes) (name : String) :
    (helds.findSome? fun held => held.bindings[name]?) =
      scopes.findSome? fun scope => scope.bindings.lookup name := by
  induction h with
  | nil => rfl
  | cons hheld _ ih => rw [List.findSome?_cons, List.findSome?_cons, hheld.bindings, ih]

theorem InStep.find? (h : kept.InStep captures) : kept.find? = captures.find? := by
  funext name
  rw [Captures.find?_eq_findSome?]
  exact findSome?_getElem? h.scopes name

/-- In step, the stores cannot be told apart by looking names up. -/
theorem InStep.lookups (horder : Enumerates order) (h : kept.InStep captures) :
    kept.lookups order = captures.lookups := by
  have hflattened : (fun name : String => (kept.snapshot order)[name]?) =
      fun name => captures.snapshot.lookup name := by
    funext name
    rw [getElem?_snapshot horder, h.find?, Captures.find?_eq_lookup]
  have hbound : kept.isBound = captures.isBound := by
    funext name
    rw [MappedCaptures.isBound, h.find?, Captures.isBound]
  have hget : kept.get = captures.get := by
    funext name
    have hfound : kept.find? name = captures.find? name := congrFun h.find? name
    cases hname : captures.find? name with
    | some value => simp only [MappedCaptures.get, Captures.get, hfound, hname]
    | none => simp only [MappedCaptures.get, Captures.get, hfound, hname]
  have hmerged : (fun bindings => (kept.bindAll bindings).find?) =
      fun bindings => (captures.bindAll bindings).find? :=
    funext fun bindings => (h.bindAll bindings).find?
  rw [MappedCaptures.lookups, Captures.lookups, hflattened, h.find?, hbound, hget, hmerged]

end MappedCaptures

/-- The flattened bindings of a store have each name once and say of every name what is found by
looking it up, and of bindings that are merged the last one of each name counts.  So it is in a store
of maps whatever was done to it, in whatever order the maps hand out their bindings, and its answers
are those of a store of lists. -/
theorem lookups_agree {ν : Type} :
    (∀ captures : Captures ν,
        captures.lookups.Agree ∧ (captures.snapshot.map Prod.fst).Nodup) ∧
      ∀ (kept : MappedCaptures ν) (order : Std.HashMap String ν → List (String × ν)),
        kept.Reachable → MappedCaptures.Enumerates order →
          (kept.lookups order).Agree ∧ ∃ captures : Captures ν,
            captures.Reachable ∧ kept.lookups order = captures.lookups := by
  refine ⟨fun captures => ⟨captures.agree_lookups, Captures.nodup_visible _⟩,
    fun kept order hreach horder => ?_⟩
  obtain ⟨captures, hcaptures, hstep⟩ := hreach.exists_inStep
  have hsame := hstep.lookups horder
  refine ⟨?_, captures, hcaptures, hsame⟩
  rw [hsame]
  exact captures.agree_lookups

/-- Two scopes are on top of the base scope.  The token is that of the inner one, at the depth of
the other, so that no scope is closed. -/
def MappedCaptures.nested : MappedCaptures Nat :=
  (((empty.bind "a" 1).enter.2.bind "b" 2).enter.2).unwind { depth := 1, id := 2 }

theorem MappedCaptures.nested_lookups_agree :
    let order := fun map : Std.HashMap String Nat => map.toList
    let merged := nested.bindAll [("a", 3), ("c", 4), ("a", 5)]
    nested.Reachable ∧ Enumerates order ∧
      (nested.snapshot order)["b"]? = some 2 ∧ (merged.snapshot order)["a"]? = some 5 ∧
      (merged.snapshot order)["b"]? = some 2 ∧ merged.get "d" = .error (.unboundCapture "d") := by
  intro order merged
  have hreach : nested.Reachable :=
    ((((Reachable.empty.bind "a" 1).enter).bind "b" 2).enter).unwind _
  have horder : Enumerates order := fun map => List.Perm.refl map.toList
  obtain ⟨hagree, -⟩ := lookups_agree.2 nested order hreach horder
  obtain ⟨hmerged, -⟩ := lookups_agree.2 merged order (hreach.bindAll _) horder
  have hfound : nested.find? "b" = some 2 ∧ nested.find? "d" = none := by
    simp [nested, empty, bind, enter, unwind, find?]
  have hnone : (merged.lookups order).flattened "d" = none :=
    (hmerged.flattened "d").trans ((hagree.unmerged _ "d" (by decide)).trans hfound.2)
  refine ⟨hreach, horder, (hagree.flattened "b").trans hfound.1, ?_, ?_, ?_⟩
  · exact (hmerged.flattened "a").trans (hagree.merged [("a", 3), ("c", 4)] "a" 5 [] (by decide))
  · exact (hmerged.flattened "b").trans ((hagree.unmerged _ "b" (by decide)).trans hfound.1)
  · exact (hmerged.get "d").trans (by rw [hnone])

end StackCode
