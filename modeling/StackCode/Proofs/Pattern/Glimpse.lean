import StackCode.Proofs.Pattern.Ways

/-!
What is seen of the ways of a pattern by looking for them only so far.

A repetition without an upper end may have no last way, and what stands behind it may never match,
so that there is no list of the ways of such a pattern.  `Pattern.glimpse` looks at no more copies
than a horizon allows.  That says something about every pattern, and where a list of ways exists it
is what a glimpse shows if the horizon is far enough (`Pattern.Productive.glimpse_eq`).
-/

namespace StackCode

/-- The first ways, in the order in which they are tried, and what is behind them. -/
inductive Glimpse (ν : Type) where
  /-- The horizon.  There may be ways behind it. -/
  | cut
  | done
  | failed (error : Error)
  | way (stop : Nat) (env : Bindings ν) (rest : Glimpse ν)

namespace Glimpse

variable {ν : Type}

/-- A single way. -/
def one (stop : Nat) (env : Bindings ν) : Glimpse ν := way stop env done

/-- A single way, if there is one at all. -/
def oneIf (holds : Bool) (stop : Nat) (env : Bindings ν) : Glimpse ν :=
  if holds then one stop env else done

/-- Everything is seen. -/
def ofWays : Ways ν → Glimpse ν
  | .done => done
  | .failed error => failed error
  | .way stop env rest => way stop env (ofWays rest)

/-- What is seen of one, and then of the other. -/
def append : Glimpse ν → Glimpse ν → Glimpse ν
  | cut, _ => cut
  | done, others => others
  | failed error, _ => failed error
  | way stop env rest, others => way stop env (rest.append others)

instance : Append (Glimpse ν) := ⟨append⟩

/-- Every way of one, continued by what is seen from its end on, depth first. -/
def andThen (next : Nat → Bindings ν → Glimpse ν) : Glimpse ν → Glimpse ν
  | cut => cut
  | done => done
  | failed error => failed error
  | way stop env rest => next stop env ++ rest.andThen next

/-- The first way, without the tokens that it consumes. -/
def peek (hidden : Bool) (start : Nat) (env : Bindings ν) : Glimpse ν → Glimpse ν
  | cut => cut
  | done => done
  | failed error => failed error
  | way _ found _ => one start (if hidden then env else found)

/-- At most `budget` further copies of something behind the `count` copies that led to `start`.
Without an upper end there may be more of them, behind the horizon. -/
def copies (copy : Nat → Bindings ν → Glimpse ν) (isDue : Nat → Bool) (isBounded : Bool) :
    (budget count start : Nat) → Bindings ν → Glimpse ν
  | 0, count, start, env => if isBounded then oneIf (isDue count) start env else cut
  | budget + 1, count, start, env =>
    oneIf (isDue count) start env ++
      (copy start env).andThen (copies copy isDue isBounded budget (count + 1))

/-! ## The ways of one and another -/

theorem way_append (stop : Nat) (env : Bindings ν) (rest others : Glimpse ν) :
    way stop env rest ++ others = way stop env (rest ++ others) := rfl

theorem append_done (glimpse : Glimpse ν) : glimpse ++ done = glimpse := by
  induction glimpse with
  | way stop env rest ih => rw [way_append, ih]
  | _ => rfl

theorem append_assoc (first second third : Glimpse ν) :
    first ++ second ++ third = first ++ (second ++ third) := by
  induction first with
  | way stop env rest ih => rw [way_append, way_append, way_append, ih]
  | _ => rfl

theorem one_andThen (stop : Nat) (env : Bindings ν) (next : Nat → Bindings ν → Glimpse ν) :
    (one stop env).andThen next = next stop env := append_done _

theorem andThen_one (glimpse : Glimpse ν) : glimpse.andThen one = glimpse := by
  induction glimpse with
  | way stop env rest ih =>
    rw [andThen, ih]
    rfl
  | _ => rfl

theorem append_andThen (first second : Glimpse ν) (next : Nat → Bindings ν → Glimpse ν) :
    (first ++ second).andThen next = first.andThen next ++ second.andThen next := by
  induction first with
  | way stop env rest ih => rw [way_append, andThen, andThen, ih, append_assoc]
  | _ => rfl

theorem andThen_assoc (glimpse : Glimpse ν) (next after : Nat → Bindings ν → Glimpse ν) :
    (glimpse.andThen next).andThen after =
      glimpse.andThen fun stop env => (next stop env).andThen after := by
  induction glimpse with
  | way stop env rest ih => rw [andThen, andThen, append_andThen, ih]
  | _ => rfl

/-- Counting from another number on only changes when a count is due. -/
theorem copies_add (copy : Nat → Bindings ν → Glimpse ν) (isDue : Nat → Bool)
    (isBounded : Bool) (offset : Nat) : ∀ budget count start env,
      copies copy isDue isBounded budget (count + offset) start env =
        copies copy (fun count => isDue (count + offset)) isBounded budget count start env := by
  intro budget
  induction budget with
  | zero => exact fun _ _ _ => rfl
  | succ budget ih =>
    intro count start env
    have hrest : copies copy isDue isBounded budget (count + offset + 1) =
        copies copy (fun count => isDue (count + offset)) isBounded budget (count + 1) := by
      funext start env
      rw [Nat.add_right_comm, ih]
    rw [copies, copies, hrest]

/-! ## Glimpses of everything -/

theorem ofWays_oneIf (holds : Bool) (stop : Nat) (env : Bindings ν) :
    ofWays (.oneIf holds stop env) = oneIf holds stop env := by
  cases holds <;> rfl

theorem ofWays_append (ways others : Ways ν) :
    ofWays (ways ++ others) = ofWays ways ++ ofWays others := by
  induction ways with
  | way stop env rest ih => rw [Ways.way_append, ofWays, ih, ofWays, way_append]
  | _ => rfl

/-- Everything is seen if everything is seen from the end of each way on. -/
theorem ofWays_andThen {ways : Ways ν} {next : Nat → Bindings ν → Ways ν}
    {glimpse : Nat → Bindings ν → Glimpse ν}
    (h : ∀ way ∈ ways.toList, glimpse way.1 way.2 = ofWays (next way.1 way.2)) :
    (ofWays ways).andThen glimpse = ofWays (ways.andThen next) := by
  induction ways with
  | way stop env rest ih =>
    obtain ⟨hfirst, hrest⟩ := List.forall_mem_cons.mp h
    rw [ofWays, andThen, Ways.andThen, ofWays_append, hfirst, ih hrest]
  | _ => rfl

theorem ofWays_copies {copy : Nat → Bindings ν → Ways ν} (isDue : Nat → Bool) :
    ∀ budget count start env,
      copies (fun start env => ofWays (copy start env)) isDue true budget count start env =
        ofWays (Ways.copies copy isDue budget count start env) := by
  intro budget
  induction budget with
  | zero => exact fun count start env => (ofWays_oneIf _ start env).symm
  | succ budget ih =>
    intro count start env
    rw [copies, Ways.copies, ofWays_append, ofWays_oneIf,
      ofWays_andThen fun way _ => ih (count + 1) way.1 way.2]

end Glimpse

/-! ## Patterns -/

section Meaning

variable {τ ν : Type} [Capturable τ ν] [DecidableEq τ]

mutual

/-- What is seen of the ways in which a pattern matches `sequence` from `start` on, where `env` is in
sight.  Of a repetition without an upper end, `horizon` copies are seen behind the first ones that
it cannot do without. -/
def Pattern.glimpse (horizon : Nat) (sequence : Array τ) :
    Pattern τ ν → Nat → Bindings ν → Glimpse ν
  | .token test capture, start, env =>
    .ofWays ((Pattern.token test capture).ways sequence start env)
  | .span lengths capture, start, env =>
    .ofWays ((Pattern.span lengths capture).ways sequence start env)
  | .atEnd, start, env => .ofWays (Pattern.atEnd.ways sequence start env)
  | .lookahead inner hidden, start, env =>
    (inner.glimpse horizon sequence start env).peek hidden start env
  | .choice branches, start, env => Pattern.choiceGlimpse horizon sequence branches start env
  | .chain parts, start, env => Pattern.chainGlimpse horizon sequence parts start env
  | .repeated inner min max step, start, env =>
    if max.any (· < min) then .done
    else
      Glimpse.copies (inner.glimpse horizon sequence)
        (fun count => min ≤ count && (count - min) % Nat.max step 1 = 0)
        max.isSome (max.getD (min + horizon)) 0 start env
  | .weighted run, start, env => .ofWays ((Pattern.weighted run).ways sequence start env)

/-- What is seen of each branch, all from the same place. -/
def Pattern.choiceGlimpse (horizon : Nat) (sequence : Array τ) :
    List (Pattern τ ν) → Nat → Bindings ν → Glimpse ν
  | [], _, _ => .done
  | branch :: rest, start, env =>
    branch.glimpse horizon sequence start env ++
      Pattern.choiceGlimpse horizon sequence rest start env

/-- What is seen of the parts, each from the end of the one before it. -/
def Pattern.chainGlimpse (horizon : Nat) (sequence : Array τ) :
    List (Pattern τ ν) → Nat → Bindings ν → Glimpse ν
  | [], start, env => .one start env
  | part :: rest, start, env =>
    (part.glimpse horizon sequence start env).andThen (Pattern.chainGlimpse horizon sequence rest)

end

/-! ## Patterns with a list of ways -/

/-- The horizon of a repetition is behind its last way, if the copies outlast the tokens. -/
theorem Pattern.Consumes.copies_eq {sequence : Array τ} {inner : Pattern τ ν}
    (consumes : inner.Consumes sequence) (isDue : Nat → Bool) :
    ∀ budget count start env, sequence.size < start + budget → 0 < budget →
      Glimpse.copies (fun start env => .ofWays (inner.ways sequence start env)) isDue false budget
          count start env =
        .ofWays (Ways.copies (inner.ways sequence) isDue budget count start env) := by
  intro budget
  induction budget with
  | zero => exact fun _ _ _ _ h => absurd h (Nat.lt_irrefl 0)
  | succ budget ih =>
    intro count start env hbudget _
    have hrest : ∀ way ∈ (inner.ways sequence start env).toList,
        Glimpse.copies (fun start env => .ofWays (inner.ways sequence start env)) isDue false
            budget (count + 1) way.1 way.2 =
          .ofWays (Ways.copies (inner.ways sequence) isDue budget (count + 1) way.1 way.2) := by
      intro way hway
      have hlt : start < way.1 := consumes start env way hway
      have hle : Ahead sequence.size start way.1 := inner.ahead_ways sequence start env way hway
      unfold Ahead at hle
      exact ih (count + 1) way.1 way.2 (by omega) (by omega)
    rw [Glimpse.copies, Ways.copies, Glimpse.ofWays_append, Glimpse.ofWays_oneIf,
      Glimpse.ofWays_andThen hrest]

section Equations

variable {sequence : Array τ} {horizon : Nat}

theorem Pattern.choiceGlimpse_eq {branches : List (Pattern τ ν)} (start : Nat) (env : Bindings ν)
    (h : ∀ branch ∈ branches,
      branch.glimpse horizon sequence start env = .ofWays (branch.ways sequence start env)) :
    choiceGlimpse horizon sequence branches start env =
      .ofWays (choiceWays sequence branches start env) := by
  induction branches with
  | nil => rfl
  | cons branch rest ih =>
    obtain ⟨hbranch, hrest⟩ := List.forall_mem_cons.mp h
    rw [choiceGlimpse, choiceWays, Glimpse.ofWays_append, hbranch, ih hrest]

theorem Pattern.chainGlimpse_eq {parts : List (Pattern τ ν)}
    (h : ∀ part ∈ parts, ∀ start env,
      part.glimpse horizon sequence start env = .ofWays (part.ways sequence start env)) :
    ∀ start env, chainGlimpse horizon sequence parts start env =
      .ofWays (chainWays sequence parts start env) := by
  induction parts with
  | nil => exact fun _ _ => rfl
  | cons part rest ih =>
    intro start env
    obtain ⟨hpart, hrest⟩ := List.forall_mem_cons.mp h
    rw [chainGlimpse, chainWays, hpart,
      Glimpse.ofWays_andThen fun way _ => ih hrest way.1 way.2]

/-- Behind the last token there is nothing more to see of a productive pattern. -/
theorem Pattern.Productive.glimpse_eq {pattern : Pattern τ ν}
    (productive : pattern.Productive sequence) (hsize : sequence.size < horizon) :
    ∀ start env, pattern.glimpse horizon sequence start env =
      .ofWays (pattern.ways sequence start env) := by
  induction productive with
  | token _ _ => exact fun _ _ => by rw [glimpse]
  | span _ _ => exact fun _ _ => by rw [glimpse]
  | atEnd => exact fun _ _ => by rw [glimpse]
  | weighted _ => exact fun _ _ => by rw [glimpse]
  | lookahead _ hidden hinner =>
    intro start env
    rw [glimpse, ways, hinner]
    cases Pattern.ways sequence _ start env <;> rfl
  | choice _ hbranches =>
    exact fun start env =>
      choiceGlimpse_eq start env fun branch hbranch => hbranches branch hbranch start env
  | chain _ hparts => exact chainGlimpse_eq hparts
  | @repeated inner _ min max consumes step hinner =>
    intro start env
    have hcopy : inner.glimpse horizon sequence =
        fun start env => .ofWays (inner.ways sequence start env) := by
      funext start env
      exact hinner start env
    rw [glimpse, ways, hcopy]
    split
    · rfl
    · cases max with
      | some max => exact Glimpse.ofWays_copies _ max 0 start env
      | none =>
        have hcopies := (consumes rfl).copies_eq
          (fun count => min ≤ count && (count - min) % Nat.max step 1 = 0) (min + horizon) 0 start
          env (by omega) (by omega)
        rw [copies_budget (consumes rfl) _ (min + horizon) (sequence.size + 1) 0 start env
          (by omega) (by omega) (by omega) (by omega)] at hcopies
        exact hcopies

end Equations

end Meaning

end StackCode
