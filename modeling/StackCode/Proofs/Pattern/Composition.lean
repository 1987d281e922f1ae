import StackCode.Proofs.Pattern.Enumeration
import StackCode.Proofs.Pattern.Lockstep

/-!
Patterns that are made in different ways and match in the same ones.

Chains of chains are flattened where they are made, choices of choices are too, and a repetition can
be written out.  What is seen of the one and of the other from any horizon is the same, by the laws
for the ways of one and another.  They differ in the scopes that are open while they match, which is
nothing to tests that only look at the bindings in sight, and all that other tests may look at.
-/

namespace StackCode
namespace Pattern

variable {τ ν : Type}

/-! ## Parts and branches -/

/-- The pattern is flattened where another one follows it or goes before it. -/
def IsChain (pattern : Pattern τ ν) : Prop := ∃ parts, pattern = .chain parts

/-- The pattern is flattened beside another one. -/
def IsChoice (pattern : Pattern τ ν) : Prop := ∃ branches, pattern = .choice branches

theorem parts_of_not_isChain {pattern : Pattern τ ν} (h : ¬ pattern.IsChain) :
    pattern.parts = [pattern] := by
  cases pattern with
  | chain parts => exact absurd ⟨parts, rfl⟩ h
  | _ => rfl

theorem branches_of_not_isChoice {pattern : Pattern τ ν} (h : ¬ pattern.IsChoice) :
    pattern.branches = [pattern] := by
  cases pattern with
  | choice branches => exact absurd ⟨branches, rfl⟩ h
  | _ => rfl

theorem Scopeless.parts {pattern : Pattern τ ν} (h : pattern.Scopeless) :
    ∀ part ∈ pattern.parts, part.Scopeless := by
  cases h with
  | chain h => exact h
  | _ => exact List.forall_mem_singleton.mpr (by constructor <;> assumption)

theorem Scopeless.branches {pattern : Pattern τ ν} (h : pattern.Scopeless) :
    ∀ branch ∈ pattern.branches, branch.Scopeless := by
  cases h with
  | choice h => exact h
  | _ => exact List.forall_mem_singleton.mpr (by constructor <;> assumption)

/-- A token, where so many scopes are open. -/
def atDepth (depth : Nat) : Pattern τ ν :=
  satisfying fun captures _ => .ok (if captures.depth = depth then .accept else .reject)

/-- A token, where the next scope gets the given id. -/
def atId (id : Nat) : Pattern τ ν :=
  satisfying fun captures _ => .ok (if captures.fresh = id then .accept else .reject)

variable [Capturable τ ν] [DecidableEq τ]

/-! ## Chains and choices -/

section Flattening

variable (horizon : Nat) (sequence : Array τ)

theorem chainGlimpse_append (parts others : List (Pattern τ ν)) : ∀ start env,
    chainGlimpse horizon sequence (parts ++ others) start env =
      (chainGlimpse horizon sequence parts start env).andThen
        (chainGlimpse horizon sequence others) := by
  induction parts with
  | nil => exact fun start env => (Glimpse.one_andThen start env _).symm
  | cons part rest ih =>
    intro start env
    have hrest : chainGlimpse horizon sequence (rest ++ others) = fun stop env =>
        (chainGlimpse horizon sequence rest stop env).andThen
          (chainGlimpse horizon sequence others) :=
      funext fun stop => funext fun env => ih stop env
    rw [List.cons_append, chainGlimpse, chainGlimpse, Glimpse.andThen_assoc, hrest]

theorem chainGlimpse_singleton (pattern : Pattern τ ν) :
    chainGlimpse horizon sequence [pattern] = pattern.glimpse horizon sequence :=
  funext fun _ => funext fun _ => Glimpse.andThen_one _

theorem chainGlimpse_parts (pattern : Pattern τ ν) :
    chainGlimpse horizon sequence pattern.parts = pattern.glimpse horizon sequence := by
  cases pattern with
  | chain parts => rfl
  | _ => exact chainGlimpse_singleton horizon sequence _

theorem choiceGlimpse_append (branches others : List (Pattern τ ν)) (start : Nat)
    (env : Bindings ν) :
    choiceGlimpse horizon sequence (branches ++ others) start env =
      choiceGlimpse horizon sequence branches start env ++
        choiceGlimpse horizon sequence others start env := by
  induction branches with
  | nil => rfl
  | cons branch rest ih =>
    rw [List.cons_append, choiceGlimpse, choiceGlimpse, ih, Glimpse.append_assoc]

theorem choiceGlimpse_singleton (pattern : Pattern τ ν) :
    choiceGlimpse horizon sequence [pattern] = pattern.glimpse horizon sequence :=
  funext fun _ => funext fun _ => Glimpse.append_done _

theorem choiceGlimpse_branches (pattern : Pattern τ ν) :
    choiceGlimpse horizon sequence pattern.branches = pattern.glimpse horizon sequence := by
  cases pattern with
  | choice branches => rfl
  | _ => exact choiceGlimpse_singleton horizon sequence _

theorem glimpse_append (first second : Pattern τ ν) :
    (first.append second).glimpse horizon sequence =
      (Pattern.chain [first, second]).glimpse horizon sequence := by
  funext start env
  show chainGlimpse horizon sequence (first.parts ++ second.parts) start env =
    chainGlimpse horizon sequence ([first] ++ [second]) start env
  rw [chainGlimpse_append, chainGlimpse_append, chainGlimpse_parts, chainGlimpse_parts,
    chainGlimpse_singleton, chainGlimpse_singleton]

theorem glimpse_orElse (first second : Pattern τ ν) :
    (first.orElse second).glimpse horizon sequence =
      (Pattern.choice [first, second]).glimpse horizon sequence := by
  funext start env
  show choiceGlimpse horizon sequence (first.branches ++ second.branches) start env =
    choiceGlimpse horizon sequence ([first] ++ [second]) start env
  rw [choiceGlimpse_append, choiceGlimpse_append, choiceGlimpse_branches, choiceGlimpse_branches,
    choiceGlimpse_singleton, choiceGlimpse_singleton]

end Flattening

theorem append_sameWays {first second : Pattern τ ν} (hfirst : first.Scopeless)
    (hsecond : second.Scopeless) (sequence : Array τ) :
    SameWays sequence (first.append second) (.chain [first, second]) := by
  have hparts : ∀ part ∈ first.parts ++ second.parts, part.Scopeless :=
    List.forall_mem_append.mpr ⟨hfirst.parts, hsecond.parts⟩
  have hpair : ∀ part ∈ [first, second], part.Scopeless :=
    List.forall_mem_cons.mpr ⟨hfirst, List.forall_mem_singleton.mpr hsecond⟩
  exact .of_glimpse (.chain hparts) (.chain hpair) fun horizon =>
    glimpse_append horizon sequence first second

theorem orElse_sameWays {first second : Pattern τ ν} (hfirst : first.Scopeless)
    (hsecond : second.Scopeless) (sequence : Array τ) :
    SameWays sequence (first.orElse second) (.choice [first, second]) := by
  have hbranches : ∀ branch ∈ first.branches ++ second.branches, branch.Scopeless :=
    List.forall_mem_append.mpr ⟨hfirst.branches, hsecond.branches⟩
  have hpair : ∀ branch ∈ [first, second], branch.Scopeless :=
    List.forall_mem_cons.mpr ⟨hfirst, List.forall_mem_singleton.mpr hsecond⟩
  exact .of_glimpse (.choice hbranches) (.choice hpair) fun horizon =>
    glimpse_orElse horizon sequence first second

/-- A pattern that stands in front of the branches is tried before any of them, so that it may look
at the scopes. -/
theorem cons_branches_sameWays (first : Pattern τ ν) {second : Pattern τ ν}
    (hsecond : second.Scopeless) (sequence : Array τ) :
    SameWays sequence (.choice (first :: second.branches)) (.choice [first, second]) := by
  have hbranches : SameWays sequence (.choice second.branches) (.choice [second]) :=
    .of_glimpse (.choice hsecond.branches) (.choice (List.forall_mem_singleton.mpr hsecond))
      fun horizon => (choiceGlimpse_branches horizon sequence second).trans
        (choiceGlimpse_singleton horizon sequence second).symm
  exact hbranches.choice_cons first

/-- One pattern after the other, or else the other, matches as the patterns do that nest the two.
Where nothing is flattened they are the same patterns.  Where something is flattened, the nested
patterns open a scope more, and the tests that are tried inside it or behind it have to look at what
is in sight and not at the scopes. -/
theorem composed_sameWays (first second : Pattern τ ν) (sequence : Array τ) :
    ((first.IsChain ∨ second.IsChain → first.Scopeless ∧ second.Scopeless) →
        SameWays sequence (first.append second) (.chain [first, second])) ∧
      ((first.IsChoice → first.Scopeless ∧ second.Scopeless) →
        (second.IsChoice → second.Scopeless) →
        SameWays sequence (first.orElse second) (.choice [first, second])) := by
  constructor
  · intro hscopeless
    by_cases hflat : first.IsChain ∨ second.IsChain
    · obtain ⟨hfirst, hsecond⟩ := hscopeless hflat
      exact append_sameWays hfirst hsecond sequence
    · obtain ⟨hfirst, hsecond⟩ := not_or.mp hflat
      rw [append, parts_of_not_isChain hfirst, parts_of_not_isChain hsecond]
      exact .refl sequence _
  · intro hboth hscopeless
    by_cases hfirst : first.IsChoice
    · exact orElse_sameWays (hboth hfirst).1 (hboth hfirst).2 sequence
    · rw [orElse, branches_of_not_isChoice hfirst]
      by_cases hsecond : second.IsChoice
      · exact cons_branches_sameWays first (hscopeless hsecond) sequence
      · rw [branches_of_not_isChoice hsecond]
        exact .refl sequence _

/-- A chain and a choice: the one is flattened where they follow each other, the other where they
stand beside each other.  A token that is tested for scopes is flattened by neither, and may stand
in front of a choice that is. -/
theorem doubled_composed :
    SameWays #['a', 'a', 'b', 'b'] (doubled.append (.choice [.any, .atEnd]))
        (.chain [doubled, .choice [.any, .atEnd]]) ∧
      SameWays #['a', 'a', 'b', 'b'] (doubled.orElse (.choice [.any, .atEnd]))
        (.choice [doubled, .choice [.any, .atEnd]]) ∧
      SameWays #['a', 'a', 'b', 'b']
        ((atDepth 2).append .any : Pattern Char (Captured Char)) (.chain [atDepth 2, .any]) ∧
      SameWays #['a', 'a', 'b', 'b']
        ((atDepth 2).orElse (.choice [.any, .atEnd]) : Pattern Char (Captured Char))
        (.choice [atDepth 2, .choice [.any, .atEnd]]) ∧
      Ending.observe (((doubled.append (.choice [.any, .atEnd])).cursor 0).ways
          #['a', 'a', 'b', 'b'] 40 3 .empty) =
        ([(3, [("x", .token 'a')]), (4, [("x", .token 'b')])], .done) := by
  have hrest : (Pattern.choice [.any, .atEnd] : Pattern Char (Captured Char)).Scopeless :=
    .choice (List.forall_mem_cons.mpr ⟨.span _ _, List.forall_mem_singleton.mpr .atEnd⟩)
  have hboth := And.intro doubled_productive.scopeless hrest
  have hneither : ¬ ((atDepth 2 : Pattern Char (Captured Char)).IsChain ∨
      (any : Pattern Char (Captured Char)).IsChain) := by
    rintro (⟨_, h⟩ | ⟨_, h⟩) <;> cases h
  have htoken : ¬ (atDepth 2 : Pattern Char (Captured Char)).IsChoice := by
    rintro ⟨_, h⟩
    cases h
  exact ⟨(composed_sameWays _ _ _).1 fun _ => hboth,
    (composed_sameWays _ _ _).2 (fun _ => hboth) fun _ => hrest,
    (composed_sameWays _ _ _).1 fun h => absurd h hneither,
    (composed_sameWays _ _ _).2 (fun h => absurd h htoken) fun _ => hrest, by decide +kernel⟩

/-- Tests that look at the scopes tell flattened patterns from nested ones.  What is flattened is
inside a scope less, and what is tried behind it comes after a scope less. -/
theorem scopes_not_composed :
    ¬ SameWays #['a', 'b', 'c']
        ((Pattern.chain [.any, atDepth 4]).append .any : Pattern Char (Captured Char))
        (.chain [.chain [.any, atDepth 4], .any]) ∧
      ¬ SameWays #['a', 'b']
        ((Pattern.choice [.span [2] none, atId 7]).append (.chain [.any]) :
          Pattern Char (Captured Char))
        (.chain [.choice [.span [2] none, atId 7], .chain [.any]]) ∧
      ¬ SameWays #['a']
        ((Pattern.choice [atDepth 2]).orElse .atEnd : Pattern Char (Captured Char))
        (.choice [.choice [atDepth 2], .atEnd]) ∧
      ¬ SameWays #['a']
        ((Pattern.choice [.atEnd]).orElse (atId 4) : Pattern Char (Captured Char))
        (.choice [.choice [.atEnd], atId 4]) := by
  exact ⟨
    not_sameWays ([(3, [])], .limit) ([], .done) 1 20 (fun _ => rfl) (fun _ => rfl) (by decide),
    not_sameWays ([(2, [])], .limit) ([], .done) 1 20 (fun _ => rfl) (fun _ => rfl) (by decide),
    not_sameWays ([(1, [])], .limit) ([], .done) 1 20 (fun _ => rfl) (fun _ => rfl) (by decide),
    not_sameWays ([(1, [])], .limit) ([], .done) 1 20 (fun _ => rfl) (fun _ => rfl) (by decide)⟩

/-! ## Repetitions -/

/-- Copies that no count is due behind are a chain in front of the others. -/
theorem copies_glimpse (horizon : Nat) (sequence : Array τ) (inner : Pattern τ ν)
    (isDue : Nat → Bool) (isBounded : Bool) (budget : Nat) : ∀ more count start env,
      (∀ between, count ≤ between → between < count + more → isDue between = false) →
      Glimpse.copies (inner.glimpse horizon sequence) isDue isBounded (more + budget) count start
          env =
        (chainGlimpse horizon sequence (List.replicate more inner) start env).andThen
          (Glimpse.copies (inner.glimpse horizon sequence) isDue isBounded budget
            (count + more)) := by
  intro more
  induction more with
  | zero =>
    intro count start env _
    rw [Nat.zero_add]
    exact (Glimpse.one_andThen start env _).symm
  | succ more ih =>
    intro count start env hnone
    have hrest : Glimpse.copies (inner.glimpse horizon sequence) isDue isBounded (more + budget)
          (count + 1) =
        fun start env =>
          (chainGlimpse horizon sequence (List.replicate more inner) start env).andThen
            (Glimpse.copies (inner.glimpse horizon sequence) isDue isBounded budget
              (count + (more + 1))) := by
      funext start env
      rw [ih (count + 1) start env fun between hle hlt => hnone between (by omega) (by omega),
        Nat.add_assoc, Nat.add_comm 1 more]
    rw [Nat.succ_add, Glimpse.copies, hnone count (Nat.le_refl _) (by omega), hrest,
      List.replicate_succ, chainGlimpse, Glimpse.andThen_assoc]
    rfl

/-- The copies that a repetition cannot do without are a chain in front of the others. -/
theorem glimpse_repeated (horizon : Nat) (sequence : Array τ) (inner : Pattern τ ν) (min : Nat)
    {max : Option Nat} (hmax : ∀ most ∈ max, min ≤ most) (step : Nat) :
    (Pattern.repeated inner min max step).glimpse horizon sequence =
      (Pattern.chain (List.replicate min inner ++
        [.repeated inner 0 (max.map (· - min)) step])).glimpse horizon sequence := by
  have hsome : ¬ max.any (· < min) = true := by
    cases max with
    | none => exact Bool.false_ne_true
    | some most => simpa using hmax most rfl
  have hless : ¬ (max.map (· - min)).any (· < 0) = true := by
    cases max <;> simp
  have hbudget : max.getD (min + horizon) = min + (max.map (· - min)).getD (0 + horizon) := by
    cases max with
    | none => rw [Option.map_none, Option.getD_none, Option.getD_none, Nat.zero_add]
    | some most =>
      have hle : min ≤ most := hmax most rfl
      show most = min + (most - min)
      omega
  have hdue : (fun count => decide (min ≤ count + min) &&
        decide ((count + min - min) % Nat.max step 1 = 0)) =
      fun count => decide (0 ≤ count) && decide ((count - 0) % Nat.max step 1 = 0) := by
    funext count
    simp
  -- Behind the chain the count begins at `min`, from where on every `step`-th one is due.
  have hrest : Glimpse.copies (inner.glimpse horizon sequence)
        (fun count => min ≤ count && (count - min) % Nat.max step 1 = 0) max.isSome
        ((max.map (· - min)).getD (0 + horizon)) (0 + min) =
      (Pattern.repeated inner 0 (max.map (· - min)) step).glimpse horizon sequence := by
    funext start env
    rw [Glimpse.copies_add, hdue, glimpse, if_neg hless, Option.isSome_map]
  funext start env
  rw [glimpse, glimpse, if_neg hsome, hbudget, copies_glimpse, hrest, chainGlimpse_append,
    chainGlimpse_singleton]
  intro between _ hlt
  have hfew : ¬ min ≤ between := by omega
  rw [decide_eq_false hfew, Bool.false_and]

theorem unrolled_sameWays {inner : Pattern τ ν} (hinner : inner.Scopeless) (sequence : Array τ)
    (min : Nat) {max : Option Nat} (hmax : ∀ most ∈ max, min ≤ most) (step : Nat) :
    SameWays sequence (.repeated inner min max step)
      (.chain (List.replicate min inner ++
        [.repeated inner 0 (max.map (· - min)) step])) := by
  have hcopies : ∀ part ∈ List.replicate min inner, part.Scopeless := by
    intro part hpart
    rw [List.eq_of_mem_replicate hpart]
    exact hinner
  have hparts : ∀ part ∈ List.replicate min inner ++
      [.repeated inner 0 (max.map (· - min)) step], part.Scopeless :=
    List.forall_mem_append.mpr
      ⟨hcopies, List.forall_mem_singleton.mpr (.repeated hinner 0 _ step)⟩
  exact .of_glimpse (.repeated hinner min max step) (.chain hparts) fun horizon =>
    glimpse_repeated horizon sequence inner min hmax step

/-- A repetition matches as the chain does in which the copies that it cannot do without are written
out, if the tests look at what is in sight: what is left of the repetition opens a scope more there.
A fixed number of copies matches as a chain of that many, whatever the tests look at. -/
theorem repeated_sameWays (inner : Pattern τ ν) (sequence : Array τ) (min : Nat)
    {max : Option Nat} (hmax : ∀ most ∈ max, min ≤ most) (step : Nat) :
    (inner.Scopeless → SameWays sequence (.repeated inner min max step)
        (.chain (List.replicate min inner ++
          [.repeated inner 0 (max.map (· - min)) step]))) ∧
      SameWays sequence (.repeated inner min (some min) step)
        (.chain (List.replicate min inner)) :=
  ⟨fun hinner => unrolled_sameWays hinner sequence min hmax step,
    fixed_sameWays sequence inner min step⟩

/-- Each copy is a token or none, and only every other number of them is due. -/
theorem span_unrolled :
    (∀ most ∈ some 3, 1 ≤ most) ∧
    SameWays #['a', 'b']
        (.repeated (.span [1, 0] (some "x")) 1 (some 3) 2 : Pattern Char (Captured Char))
        (.chain [.span [1, 0] (some "x"), .repeated (.span [1, 0] (some "x")) 0 (some 2) 2]) ∧
    SameWays #['a', 'b'] (.repeated (atDepth 4) 1 (some 1) 2 : Pattern Char (Captured Char))
        (.chain [atDepth 4]) ∧
    Ending.observe (((.repeated (.span [1, 0] (some "x")) 1 (some 3) 2 :
        Pattern Char (Captured Char)).cursor 0).ways #['a', 'b'] 40 2 .empty) =
      ([(1, [("x", .run ['a'])]), (2, [("x", .run [])])], .limit) := by
  have hmax : ∀ most ∈ some 3, 1 ≤ most := by decide
  have hspan : (Pattern.span [1, 0] (some "x") : Pattern Char (Captured Char)).Scopeless :=
    .span _ _
  exact ⟨hmax, (repeated_sameWays _ _ 1 hmax 2).1 hspan, (repeated_sameWays _ _ 1 hmax 2).2,
    by decide +kernel⟩

/-- A test that looks at the scopes tells a repetition from a chain in which none of its copies are
written out: every copy is inside a scope more there. -/
theorem scopes_not_unrolled :
    ¬ SameWays #['a'] (.repeated (atDepth 2) 0 (some 1) 1 : Pattern Char (Captured Char))
      (.chain (List.replicate 0 (atDepth 2) ++
        [.repeated (atDepth 2) 0 ((some 1).map (· - 0)) 1])) :=
  not_sameWays ([(0, []), (1, [])], .limit) ([(0, [])], .done) 2 20 (fun _ => rfl)
    (fun _ => rfl) (by decide)

end Pattern
end StackCode
