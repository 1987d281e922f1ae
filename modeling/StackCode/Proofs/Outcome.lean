import Mathlib.Data.List.Forall2
import Mathlib.Data.List.Sort

/-!
Runs that succeed.  A program in `Except` returns a value exactly if each of its steps does, and
these lemmas take such a run apart into its steps.  One that fails does so at some step.
-/

namespace StackCode
namespace Outcome

variable {ε α β γ : Type}

theorem bind_eq_ok {run : Except ε α} {next : α → Except ε β} {result : β} :
    run >>= next = .ok result ↔ ∃ value, run = .ok value ∧ next value = .ok result := by
  cases run with
  | error error =>
    constructor
    · intro h
      cases h
    · rintro ⟨value, h, -⟩
      cases h
  | ok value =>
    constructor
    · intro h
      exact ⟨value, rfl, h⟩
    · rintro ⟨other, h, hnext⟩
      cases h
      exact hnext

theorem bind_eq_error {run : Except ε α} {next : α → Except ε β} {error : ε} :
    run >>= next = .error error ↔
      run = .error error ∨ ∃ value, run = .ok value ∧ next value = .error error := by
  cases run with
  | error found =>
    constructor
    · intro h
      cases h
      exact .inl rfl
    · rintro (h | ⟨value, h, -⟩)
      · cases h
        rfl
      · cases h
  | ok value =>
    constructor
    · intro h
      exact .inr ⟨value, rfl, h⟩
    · rintro (h | ⟨other, h, hnext⟩)
      · cases h
      · cases h
        exact hnext

/-- What comes behind a run matters only at its value. -/
theorem bind_congr_of_eq_ok {run : Except ε α} {next other : α → Except ε β}
    (h : ∀ value, run = .ok value → next value = other value) : run >>= next = run >>= other := by
  cases run with
  | error error => rfl
  | ok value => exact h value rfl

theorem map_eq_ok {run : Except ε α} {f : α → β} {result : β} :
    run.map f = .ok result ↔ ∃ value, run = .ok value ∧ f value = result := by
  cases run with
  | error error => simp [Except.map]
  | ok value => simp [Except.map]

theorem map_eq_error {run : Except ε α} {f : α → β} {error : ε} :
    run.map f = .error error ↔ run = .error error := by
  cases run with
  | error found => simp [Except.map]
  | ok value => simp [Except.map]

theorem pure_eq_ok {value result : α} :
    (pure value : Except ε α) = .ok result ↔ value = result := by
  constructor
  · intro h
    cases h
    rfl
  · intro h
    rw [h]
    rfl

/-- A list is mapped element by element. -/
theorem mapM_eq_ok {f : α → Except ε β} {values : List α} {results : List β} :
    values.mapM f = .ok results ↔
      List.Forall₂ (fun value result => f value = .ok result) values results := by
  induction values generalizing results with
  | nil =>
    rw [List.mapM_nil, pure_eq_ok, List.forall₂_nil_left_iff]
    exact eq_comm
  | cons value rest ih =>
    rw [List.mapM_cons, bind_eq_ok, List.forall₂_cons_left_iff]
    constructor
    · rintro ⟨first, hfirst, h⟩
      obtain ⟨others, hothers, h⟩ := bind_eq_ok.mp h
      exact ⟨first, others, hfirst, ih.mp hothers, (pure_eq_ok.mp h).symm⟩
    · rintro ⟨first, others, hfirst, hothers, h⟩
      exact ⟨first, hfirst, bind_eq_ok.mpr ⟨others, ih.mpr hothers, pure_eq_ok.mpr h.symm⟩⟩

/-- A map that fails does so at some element. -/
theorem exists_of_mapM_eq_error {f : α → Except ε β} {values : List α} {error : ε}
    (h : values.mapM f = .error error) : ∃ value ∈ values, f value = .error error := by
  induction values with
  | nil => cases h
  | cons value rest ih =>
    rw [List.mapM_cons] at h
    rcases bind_eq_error.mp h with h | ⟨_, -, h⟩
    · exact ⟨value, List.mem_cons_self, h⟩
    · rcases bind_eq_error.mp h with h | ⟨_, -, h⟩
      · obtain ⟨found, hfound, h⟩ := ih h
        exact ⟨found, List.mem_cons_of_mem value hfound, h⟩
      · cases h

/-- What holds at the start of a fold and is kept by each step holds at its end. -/
theorem foldlM_keeps (step : β → α → Except ε β) (Holds : List α → β → Prop)
    (keeps : ∀ done value state state', Holds done state → step state value = .ok state' →
      Holds (done ++ [value]) state') :
    ∀ (values done : List α) (state result : β), Holds done state →
      values.foldlM step state = .ok result → Holds (done ++ values) result := by
  intro values
  induction values with
  | nil =>
    intro done state result hstate h
    rw [List.foldlM_nil] at h
    rw [List.append_nil, ← pure_eq_ok.mp h]
    exact hstate
  | cons value rest ih =>
    intro done state result hstate h
    rw [List.foldlM_cons] at h
    obtain ⟨state', hstep, h⟩ := bind_eq_ok.mp h
    have := ih (done ++ [value]) state' result (keeps done value state state' hstate hstep) h
    rwa [List.append_assoc] at this

/-- Two lists that are related element by element are cut at the same place. -/
theorem forall₂_append_iff {R : α → β → Prop} {front back : List α} {results : List β} :
    List.Forall₂ R (front ++ back) results ↔
      ∃ left right, List.Forall₂ R front left ∧ List.Forall₂ R back right ∧
        left ++ right = results := by
  constructor
  · intro h
    refine ⟨results.take front.length, results.drop front.length, ?_, ?_,
      List.take_append_drop _ _⟩
    · have := List.forall₂_take front.length h
      rwa [List.take_left] at this
    · have := List.forall₂_drop front.length h
      rwa [List.drop_left] at this
  · rintro ⟨left, right, hleft, hright, rfl⟩
    exact List.rel_append hleft hright

theorem forall₂_flatMap_iff {R : α → β → Prop} {f : γ → List α} {values : List γ}
    {results : List β} :
    List.Forall₂ R (values.flatMap f) results ↔
      ∃ parts, List.Forall₂ (fun value part => List.Forall₂ R (f value) part) values parts ∧
        parts.flatten = results := by
  induction values generalizing results with
  | nil => simp [eq_comm]
  | cons value rest ih =>
    rw [List.flatMap_cons, forall₂_append_iff]
    constructor
    · rintro ⟨left, right, hleft, hright, rfl⟩
      obtain ⟨parts, hparts, rfl⟩ := ih.mp hright
      exact ⟨left :: parts, .cons hleft hparts, rfl⟩
    · rintro ⟨parts, hparts, rfl⟩
      obtain ⟨left, others, hleft, hothers, rfl⟩ := List.forall₂_cons_left_iff.mp hparts
      exact ⟨left, others.flatten, hleft, ih.mpr ⟨others, hothers, rfl⟩, rfl⟩

theorem forall₂_iff_getElem? {R : α → β → Prop} {values : List α} {results : List β} :
    List.Forall₂ R values results ↔ values.length = results.length ∧
      ∀ (index : Nat) (value : α) (result : β), values[index]? = some value →
        results[index]? = some result → R value result := by
  constructor
  · intro h
    refine ⟨h.length_eq, fun index value result hvalue hresult => ?_⟩
    obtain ⟨hlt, rfl⟩ := List.getElem?_eq_some_iff.mp hvalue
    obtain ⟨hlt', rfl⟩ := List.getElem?_eq_some_iff.mp hresult
    exact h.get hlt hlt'
  · rintro ⟨hlength, hall⟩
    refine List.forall₂_of_length_eq_of_get hlength fun index hvalue hresult => ?_
    exact hall index _ _ (List.getElem?_eq_getElem hvalue) (List.getElem?_eq_getElem hresult)

theorem exists_of_getElem? {R : α → β → Prop} {values : List α} {results : List β}
    (h : List.Forall₂ R values results) {index : Nat} {value : α}
    (hvalue : values[index]? = some value) :
    ∃ result, results[index]? = some result ∧ R value result := by
  obtain ⟨hlength, hall⟩ := forall₂_iff_getElem?.mp h
  obtain ⟨hlt, -⟩ := List.getElem?_eq_some_iff.mp hvalue
  have hresult : results[index]? = some results[index] := List.getElem?_eq_getElem (by omega)
  exact ⟨_, hresult, hall index _ _ hvalue hresult⟩

theorem exists_of_mem {R : α → β → Prop} {values : List α} {results : List β}
    (h : List.Forall₂ R values results) {value : α} (hmem : value ∈ values) :
    ∃ result ∈ results, R value result := by
  obtain ⟨index, hvalue⟩ := List.getElem?_of_mem hmem
  obtain ⟨result, hresult, hrel⟩ := exists_of_getElem? h hvalue
  exact ⟨result, List.mem_of_getElem? hresult, hrel⟩

theorem exists_of_mem_right {R : α → β → Prop} {values : List α} {results : List β}
    (h : List.Forall₂ R values results) {result : β} (hmem : result ∈ results) :
    ∃ value ∈ values, R value result := by
  have hflip : List.Forall₂ (fun result value => R value result) results values := h.flip
  exact exists_of_mem hflip hmem

theorem exists_forall₂ {R : α → β → Prop} {values : List α}
    (h : ∀ value ∈ values, ∃ result, R value result) :
    ∃ results, List.Forall₂ R values results := by
  induction values with
  | nil => exact ⟨[], .nil⟩
  | cons value rest ih =>
    obtain ⟨hfirst, hrest⟩ := List.forall_mem_cons.mp h
    obtain ⟨result, hresult⟩ := hfirst
    obtain ⟨results, hresults⟩ := ih hrest
    exact ⟨result :: results, .cons hresult hresults⟩

theorem exists_through {γ : Type} {R : α → β → Prop} {P : α → γ → Prop} {Q : β → γ → Prop}
    (hstep : ∀ value result, R value result → ∃ made, P value made ∧ Q result made)
    {values : List α} {results : List β} (h : List.Forall₂ R values results) :
    ∃ made, List.Forall₂ P values made ∧ List.Forall₂ Q results made := by
  induction h with
  | nil => exact ⟨[], .nil, .nil⟩
  | cons hfirst _ ih =>
    obtain ⟨first, hvalue, hresult⟩ := hstep _ _ hfirst
    obtain ⟨others, hvalues, hresults⟩ := ih
    exact ⟨first :: others, .cons hvalue hvalues, .cons hresult hresults⟩

/-- Two lists that are related to a third one are related to each other. -/
theorem forall₂_between {γ : Type} {R : α → β → Prop} {S : α → γ → Prop} {T : β → γ → Prop}
    {values : List α} {results : List β} {others : List γ} (h : List.Forall₂ R values results)
    (hothers : List.Forall₂ S values others)
    (hboth : ∀ value result, R value result → ∀ other ∈ others, S value other → T result other) :
    List.Forall₂ T results others := by
  induction h generalizing others with
  | nil =>
    cases hothers
    exact .nil
  | cons hfirst _ ih =>
    cases hothers with
    | cons hother hrest =>
      refine .cons (hboth _ _ hfirst _ List.mem_cons_self hother) (ih hrest ?_)
      exact fun value result hresult other hmem =>
        hboth value result hresult other (List.mem_cons_of_mem _ hmem)

theorem map_eq_of_forall₂ {R : α → β → Prop} {f : α → γ} {g : β → γ} {values : List α}
    {results : List β} (h : List.Forall₂ R values results)
    (heq : ∀ value ∈ values, ∀ result, R value result → f value = g result) :
    values.map f = results.map g := by
  induction h with
  | nil => rfl
  | cons hfirst _ ih =>
    obtain ⟨hvalue, hvalues⟩ := List.forall_mem_cons.mp heq
    rw [List.map_cons, List.map_cons, hvalue _ hfirst, ih hvalues]

/-- Values with ascending keys are determined by their members. -/
theorem eq_of_ascending {key : α → Nat} {values others : List α}
    (h : values.Pairwise (key · < key ·)) (hothers : others.Pairwise (key · < key ·))
    (hsub : values ⊆ others) (hsub' : others ⊆ values) : values = others := by
  have hirrefl : Std.Irrefl fun a b : α => key a < key b := ⟨fun _ => Nat.lt_irrefl _⟩
  have hantisymm : Std.Antisymm fun a b : α => key a < key b :=
    ⟨fun _ _ hab hba => absurd hab (Nat.lt_asymm hba)⟩
  exact hsub.antisymm_of_pairwise h hothers hsub'

end Outcome
end StackCode
