import StackCode.Pattern.Basic

/-!
What a pattern means, without cursors.

`Pattern.ways` lists the ways in which a pattern matches from a place, in the order in which they
are tried, by recursion on the pattern.  It knows nothing of scopes: what a way carries is the
bindings in sight at its end.  A way that is not reached does not happen, so an error stands at the
end of a list, behind the ways that were found before it.
-/

namespace StackCode

/-! ## Bindings in sight -/

namespace Bindings

variable {ν : Type}

/-- Binds `name`, in place of what it was bound to. -/
def put (env : Bindings ν) (name : String) (value : ν) : Bindings ν :=
  (name, value) :: env.filter (·.1 ≠ name)

/-- Binds names one after the other. -/
def putAll (env : Bindings ν) (bindings : List (String × ν)) : Bindings ν :=
  bindings.foldl (fun env binding => put env binding.1 binding.2) env

/-- Binds `value` if there is a name for it. -/
def putIf (env : Bindings ν) (name : Option String) (value : ν) : Bindings ν :=
  match name with
  | some name => put env name value
  | none => env

end Bindings

/-- A store in which all of `env` is bound in the base scope. -/
def Captures.ofBindings {ν : Type} (env : Bindings ν) : Captures ν :=
  { base := env, scopes := [], fresh := 1 }

/-! ## Ways -/

/-- Ways in the order in which they are tried, each with its end and the bindings in sight there.
Trying further ways behind the last one may fail. -/
inductive Ways (ν : Type) where
  | done
  | failed (error : Error)
  | way (stop : Nat) (env : Bindings ν) (rest : Ways ν)

namespace Ways

variable {ν : Type}

/-- A single way. -/
def one (stop : Nat) (env : Bindings ν) : Ways ν := way stop env done

/-- A single way, if there is one at all. -/
def oneIf (holds : Bool) (stop : Nat) (env : Bindings ν) : Ways ν :=
  if holds then one stop env else done

def ofList : List (Nat × Bindings ν) → Ways ν
  | [] => done
  | (stop, env) :: rest => way stop env (ofList rest)

/-- The ways themselves, without the error behind them. -/
def toList : Ways ν → List (Nat × Bindings ν)
  | done => []
  | failed _ => []
  | way stop env rest => (stop, env) :: rest.toList

/-- What trying a further way behind the last one fails with. -/
def error? : Ways ν → Option Error
  | done => none
  | failed error => some error
  | way _ _ rest => rest.error?

/-- The ways of one, and then those of the other. -/
def append : Ways ν → Ways ν → Ways ν
  | done, others => others
  | failed error, _ => failed error
  | way stop env rest, others => way stop env (rest.append others)

instance : Append (Ways ν) := ⟨append⟩

/-- Every way of one, continued by each of the ways that `next` gives from its end, depth first. -/
def andThen (next : Nat → Bindings ν → Ways ν) : Ways ν → Ways ν
  | done => done
  | failed error => failed error
  | way stop env rest => next stop env ++ rest.andThen next

/-- At most `budget` further copies of something behind the `count` copies that led to `start`.
What was matched so far is a way where the count is due, and it comes before those with more
copies. -/
def copies (copy : Nat → Bindings ν → Ways ν) (isDue : Nat → Bool) :
    (budget count start : Nat) → Bindings ν → Ways ν
  | 0, count, start, env => oneIf (isDue count) start env
  | budget + 1, count, start, env =>
    oneIf (isDue count) start env ++
      (copy start env).andThen (copies copy isDue budget (count + 1))

end Ways

section Meaning

variable {τ ν : Type}

/-- The ways of a weighted run behind tokens that weigh `total`, with `tokens` still to come. -/
def WeightedRun.ways (run : WeightedRun τ ν) :
    (tokens : List τ) → (start : Nat) → (total : Int) → Bindings ν → Ways ν
  | [], _, _, _ => .done
  | token :: tokens, start, total, env =>
    match run.weight token with
    | .error error => .failed error
    | .ok weight =>
      let others := run.ways tokens (start + 1) (total + weight) env
      if run.totals.accepts (total + weight) then
        let bound :=
          match run.capture with
          | some (name, value) => Bindings.put env name (value (total + weight))
          | none => env
        .way (start + 1) bound others
      else others

variable [Capturable τ ν]

/-- The bindings in sight behind a token with a verdict, if the token passes: it is bound to the
capture name, and then the names are bound that the verdict asks for. -/
def Verdict.sight (capture : Option String) (token : τ) (env : Bindings ν) :
    Verdict ν → Option (Bindings ν)
  | .reject => none
  | .accept => some (Bindings.putIf env capture (Capturable.ofToken token))
  | .bind bindings =>
    some (Bindings.putAll (Bindings.putIf env capture (Capturable.ofToken token)) bindings)

variable [DecidableEq τ]

/-- The verdict of a test on a token where `env` is in sight. -/
def TokenTest.verdict (token : τ) (env : Bindings ν) :
    TokenTest τ ν → Except Error (Verdict ν)
  | .literal value => .ok (if value = token then .accept else .reject)
  | .back name =>
    match env.lookup name with
    | some value => .ok (if Capturable.isToken value token then .accept else .reject)
    | none => .error (.unboundCapture name)
  | .oneOf options => .ok (if token ∈ options then .accept else .reject)
  | .predicate decide => decide (.ofBindings env) token

/-- At most one way, past a single token. -/
def TokenTest.ways (test : TokenTest τ ν) (capture : Option String) (token : τ) (start : Nat)
    (env : Bindings ν) : Ways ν :=
  match test.verdict token env with
  | .error error => .failed error
  | .ok verdict =>
    match verdict.sight capture token env with
    | none => .done
    | some bound => .one (start + 1) bound

mutual

/-- The ways in which a pattern matches `sequence` from `start` on, where `env` is in sight.

Without an upper end there are still at most as many copies as tokens and one, which leaves nothing
out where every copy consumes a token (`Pattern.copies_unbounded`). -/
def Pattern.ways (sequence : Array τ) : Pattern τ ν → Nat → Bindings ν → Ways ν
  | .token test capture, start, env =>
    match sequence[start]? with
    | some item => test.ways capture item start env
    | none => .done
  | .span lengths capture, start, env =>
    .ofList ((lengths.filter fun length => start + length ≤ sequence.size).map fun length =>
      (start + length, Bindings.putIf env capture
        (Capturable.ofRun (sequence.extract start (start + length)).toList)))
  | .atEnd, start, env => .oneIf (sequence.size ≤ start) start env
  | .lookahead inner hidden, start, env =>
    match inner.ways sequence start env with
    | .done => .done
    | .failed error => .failed error
    | .way _ found _ => .one start (if hidden then env else found)
  | .choice branches, start, env => Pattern.choiceWays sequence branches start env
  | .chain parts, start, env => Pattern.chainWays sequence parts start env
  | .repeated inner min max step, start, env =>
    if max.any (· < min) then .done
    else
      Ways.copies (inner.ways sequence)
        (fun count => min ≤ count && (count - min) % Nat.max step 1 = 0)
        (max.getD (sequence.size + 1)) 0 start env
  | .weighted run, start, env => run.ways (sequence.toList.drop start) start 0 env

/-- The ways of each branch, all from the same place. -/
def Pattern.choiceWays (sequence : Array τ) : List (Pattern τ ν) → Nat → Bindings ν → Ways ν
  | [], _, _ => .done
  | branch :: rest, start, env =>
    branch.ways sequence start env ++ Pattern.choiceWays sequence rest start env

/-- The ways of the parts, each from the end of the one before it. -/
def Pattern.chainWays (sequence : Array τ) : List (Pattern τ ν) → Nat → Bindings ν → Ways ν
  | [], start, env => .one start env
  | part :: rest, start, env =>
    (part.ways sequence start env).andThen (Pattern.chainWays sequence rest)

end

end Meaning

/-! ## The ways of one and another -/

namespace Ways

variable {ν : Type}

theorem way_append (stop : Nat) (env : Bindings ν) (rest others : Ways ν) :
    way stop env rest ++ others = way stop env (rest ++ others) := rfl

theorem mem_of_mem_append {ways others : Ways ν} {way : Nat × Bindings ν}
    (h : way ∈ (ways ++ others).toList) : way ∈ ways.toList ∨ way ∈ others.toList := by
  induction ways with
  | done => exact Or.inr h
  | failed error => exact Or.inl h
  | way stop env rest ih =>
    rw [way_append, toList, List.mem_cons] at h
    rw [toList, List.mem_cons]
    rcases h with h | h
    · exact Or.inl (Or.inl h)
    · exact (ih h).imp_left Or.inr

theorem mem_of_mem_andThen {next : Nat → Bindings ν → Ways ν} {ways : Ways ν}
    {way : Nat × Bindings ν} (h : way ∈ (ways.andThen next).toList) :
    ∃ first ∈ ways.toList, way ∈ (next first.1 first.2).toList := by
  induction ways with
  | done => exact absurd h List.not_mem_nil
  | failed error => exact absurd h List.not_mem_nil
  | way stop env rest ih =>
    rcases mem_of_mem_append h with h | h
    · exact ⟨(stop, env), List.mem_cons_self, h⟩
    · obtain ⟨first, hfirst, hway⟩ := ih h
      exact ⟨first, List.mem_cons_of_mem _ hfirst, hway⟩

theorem toList_ofList (list : List (Nat × Bindings ν)) : (ofList list).toList = list := by
  induction list with
  | nil => rfl
  | cons way rest ih => rw [ofList, toList, ih]

theorem andThen_one (ways : Ways ν) : ways.andThen one = ways := by
  induction ways with
  | done => rfl
  | failed error => rfl
  | way stop env rest ih =>
    rw [andThen, ih]
    rfl

/-- Only what follows the ways that there are matters. -/
theorem andThen_congr {next other : Nat → Bindings ν → Ways ν} {ways : Ways ν}
    (h : ∀ way ∈ ways.toList, next way.1 way.2 = other way.1 way.2) :
    ways.andThen next = ways.andThen other := by
  induction ways with
  | done => rfl
  | failed error => rfl
  | way stop env rest ih =>
    have hfirst : next stop env = other stop env := h (stop, env) List.mem_cons_self
    have hrest : rest.andThen next = rest.andThen other :=
      ih fun way hway => h way (List.mem_cons_of_mem _ hway)
    rw [andThen, andThen, hfirst, hrest]

end Ways

/-! ## Where ways end -/

/-- `stop` is not before `start`, and not past the end of the sequence unless `start` is. -/
def Ahead (size start stop : Nat) : Prop := start ≤ stop ∧ (stop = start ∨ stop ≤ size)

theorem Ahead.refl (size start : Nat) : Ahead size start start := ⟨Nat.le_refl _, Or.inl rfl⟩

theorem Ahead.trans {size start middle stop : Nat} (h : Ahead size start middle)
    (h' : Ahead size middle stop) : Ahead size start stop := by
  unfold Ahead at *
  omega

theorem Ahead.of_le {size start stop : Nat} (h : start ≤ stop) (h' : stop ≤ size) :
    Ahead size start stop := ⟨h, Or.inr h'⟩

theorem Ways.ahead_one {ν : Type} {size start : Nat} {env : Bindings ν} {way : Nat × Bindings ν}
    (h : way ∈ (one start env).toList) : Ahead size start way.1 := by
  have hway : way = (start, env) := List.mem_singleton.mp h
  rw [hway]
  exact Ahead.refl size start

theorem Ways.ahead_oneIf {ν : Type} {holds : Bool} {size start : Nat} {env : Bindings ν}
    {way : Nat × Bindings ν} (h : way ∈ (oneIf holds start env).toList) :
    Ahead size start way.1 := by
  cases holds with
  | false => exact absurd h List.not_mem_nil
  | true => exact ahead_one h

theorem Ways.ahead_copies {ν : Type} {size : Nat} {copy : Nat → Bindings ν → Ways ν}
    (isDue : Nat → Bool)
    (hcopy : ∀ start env, ∀ way ∈ (copy start env).toList, Ahead size start way.1) :
    ∀ budget count start env, ∀ way ∈ (copies copy isDue budget count start env).toList,
      Ahead size start way.1 := by
  intro budget
  induction budget with
  | zero => exact fun count start env way h => ahead_oneIf h
  | succ budget ih =>
    intro count start env way h
    rcases mem_of_mem_append h with h | h
    · exact ahead_oneIf h
    · obtain ⟨first, hfirst, hway⟩ := mem_of_mem_andThen h
      exact (hcopy start env first hfirst).trans (ih (count + 1) first.1 first.2 way hway)

theorem WeightedRun.ahead_ways {τ ν : Type} (run : WeightedRun τ ν) {size : Nat} :
    ∀ (tokens : List τ) start total env, start + tokens.length ≤ size →
      ∀ way ∈ (run.ways tokens start total env).toList, Ahead size start way.1 := by
  intro tokens
  induction tokens with
  | nil => exact fun _ _ _ _ _ h => absurd h List.not_mem_nil
  | cons token tokens ih =>
    intro start total env hsize way h
    rw [List.length_cons] at hsize
    have hstep : Ahead size start (start + 1) := Ahead.of_le (by omega) (by omega)
    have hothers : ∀ total, way ∈ (run.ways tokens (start + 1) total env).toList →
        Ahead size start way.1 :=
      fun total h => hstep.trans (ih (start + 1) total env (by omega) way h)
    rw [WeightedRun.ways] at h
    split at h
    · exact absurd h List.not_mem_nil
    · split at h
      · rcases List.mem_cons.mp h with h | h
        · rw [h]
          exact hstep
        · exact hothers _ h
      · exact hothers _ h

section Meaning

variable {τ ν : Type} [Capturable τ ν] [DecidableEq τ]

theorem TokenTest.ahead_ways {test : TokenTest τ ν} {capture : Option String} {token : τ}
    {size start : Nat} {env : Bindings ν} (hstart : start < size) {way : Nat × Bindings ν}
    (h : way ∈ (test.ways capture token start env).toList) : Ahead size start way.1 := by
  have hstep : Ahead size start (start + 1) := Ahead.of_le (by omega) hstart
  rw [TokenTest.ways] at h
  split at h
  · exact absurd h List.not_mem_nil
  · split at h
    · exact absurd h List.not_mem_nil
    · exact hstep.trans (Ways.ahead_one h)

mutual

/-- A pattern never matches backwards, and only what starts past the end of the sequence ends
there. -/
theorem Pattern.ahead_ways (sequence : Array τ) : ∀ (pattern : Pattern τ ν) start env,
    ∀ way ∈ (pattern.ways sequence start env).toList, Ahead sequence.size start way.1
  | .token test capture, start, env, way, h => by
    rw [Pattern.ways] at h
    split at h
    · rename_i hitem
      exact TokenTest.ahead_ways (Array.getElem?_eq_some_iff.mp hitem).1 h
    · exact absurd h List.not_mem_nil
  | .span lengths capture, start, env, way, h => by
    rw [Pattern.ways, Ways.toList_ofList] at h
    obtain ⟨length, hlength, rfl⟩ := List.mem_map.mp h
    have hsize : start + length ≤ sequence.size := by
      simpa using (List.mem_filter.mp hlength).2
    exact Ahead.of_le (Nat.le_add_right _ _) hsize
  | .atEnd, start, env, way, h => by
    rw [Pattern.ways] at h
    exact Ways.ahead_oneIf h
  | .lookahead inner hidden, start, env, way, h => by
    rw [Pattern.ways] at h
    split at h
    · exact absurd h List.not_mem_nil
    · exact absurd h List.not_mem_nil
    · exact Ways.ahead_one h
  | .choice branches, start, env, way, h =>
    Pattern.ahead_choiceWays sequence branches start env way h
  | .chain parts, start, env, way, h => Pattern.ahead_chainWays sequence parts start env way h
  | .repeated inner min max step, start, env, way, h => by
    rw [Pattern.ways] at h
    split at h
    · exact absurd h List.not_mem_nil
    · exact Ways.ahead_copies _ (Pattern.ahead_ways sequence inner) _ _ _ _ way h
  | .weighted run, start, env, way, h => by
    rw [Pattern.ways] at h
    by_cases hstart : start ≤ sequence.size
    · apply run.ahead_ways (sequence.toList.drop start) start 0 env _ way h
      rw [List.length_drop, Array.length_toList]
      omega
    · have hdrop : sequence.toList.drop start = [] :=
        List.drop_eq_nil_of_le (by rw [Array.length_toList]; omega)
      rw [hdrop] at h
      exact absurd h List.not_mem_nil

theorem Pattern.ahead_choiceWays (sequence : Array τ) : ∀ (branches : List (Pattern τ ν)) start env,
    ∀ way ∈ (choiceWays sequence branches start env).toList, Ahead sequence.size start way.1
  | [], _, _, _, h => absurd h List.not_mem_nil
  | branch :: rest, start, env, way, h => by
    rcases Ways.mem_of_mem_append h with h | h
    · exact Pattern.ahead_ways sequence branch start env way h
    · exact Pattern.ahead_choiceWays sequence rest start env way h

theorem Pattern.ahead_chainWays (sequence : Array τ) : ∀ (parts : List (Pattern τ ν)) start env,
    ∀ way ∈ (chainWays sequence parts start env).toList, Ahead sequence.size start way.1
  | [], _, _, _, h => Ways.ahead_one h
  | part :: rest, start, env, way, h => by
    obtain ⟨first, hfirst, hway⟩ := Ways.mem_of_mem_andThen h
    exact (Pattern.ahead_ways sequence part start env first hfirst).trans
      (Pattern.ahead_chainWays sequence rest first.1 first.2 way hway)

end

/-! ## Repetitions without an upper end -/

/-- Every way of the pattern consumes at least one token. -/
def Pattern.Consumes (sequence : Array τ) (pattern : Pattern τ ν) : Prop :=
  ∀ start env, ∀ way ∈ (pattern.ways sequence start env).toList, start < way.1

theorem Pattern.consumes_token (sequence : Array τ) (test : TokenTest τ ν)
    (capture : Option String) : (Pattern.token test capture).Consumes sequence := by
  intro start env way h
  rw [Pattern.ways] at h
  split at h
  · rw [TokenTest.ways] at h
    split at h
    · exact absurd h List.not_mem_nil
    · split at h
      · exact absurd h List.not_mem_nil
      · rw [List.mem_singleton.mp h]
        exact Nat.lt_succ_self start
  · exact absurd h List.not_mem_nil

/-- A budget that the rest of the sequence cannot use up is as good as any other. -/
theorem Pattern.copies_budget {sequence : Array τ} {inner : Pattern τ ν}
    (consumes : inner.Consumes sequence) (isDue : Nat → Bool) :
    ∀ budget other count start env, sequence.size < start + budget → 0 < budget →
      sequence.size < start + other → 0 < other →
      Ways.copies (inner.ways sequence) isDue budget count start env =
        Ways.copies (inner.ways sequence) isDue other count start env := by
  intro budget
  induction budget with
  | zero => exact fun _ _ _ _ _ h => absurd h (Nat.lt_irrefl 0)
  | succ budget ih =>
    intro other count start env hbudget _ hother hpos
    obtain ⟨other, rfl⟩ : ∃ less, other = less + 1 := ⟨other - 1, by omega⟩
    -- A copy ends past `start` and within the sequence, so both budgets outlast it again.
    have hrest : (inner.ways sequence start env).andThen
          (Ways.copies (inner.ways sequence) isDue budget (count + 1)) =
        (inner.ways sequence start env).andThen
          (Ways.copies (inner.ways sequence) isDue other (count + 1)) := by
      apply Ways.andThen_congr
      intro way hway
      have hlt : start < way.1 := consumes start env way hway
      have hle : Ahead sequence.size start way.1 :=
        Pattern.ahead_ways sequence inner start env way hway
      unfold Ahead at hle
      exact ih other (count + 1) way.1 way.2 (by omega) (by omega) (by omega) (by omega)
    rw [Ways.copies, Ways.copies, hrest]

/-- Behind any number of copies, a further copy can follow: the number of tokens puts no end to a
repetition of something that consumes tokens. -/
theorem Pattern.copies_unbounded {sequence : Array τ} {inner : Pattern τ ν}
    (consumes : inner.Consumes sequence) (isDue : Nat → Bool) (count start : Nat)
    (env : Bindings ν) :
    Ways.copies (inner.ways sequence) isDue (sequence.size + 1) count start env =
      Ways.oneIf (isDue count) start env ++ (inner.ways sequence start env).andThen
        (Ways.copies (inner.ways sequence) isDue (sequence.size + 1) (count + 1)) :=
  Pattern.copies_budget consumes isDue (sequence.size + 1) (sequence.size + 2) count start env
    (by omega) (by omega) (by omega) (by omega)

/-! ## Patterns with a meaning -/

/-- The test looks at the bindings in sight, not at the scopes that they were made in. -/
def TokenTest.Scopeless : TokenTest τ ν → Prop
  | .predicate decide => ∀ captures token,
      decide captures token = decide (.ofBindings captures.snapshot) token
  | _ => True

/-- Tests only look at the bindings in sight. -/
inductive Pattern.Scopeless : Pattern τ ν → Prop where
  | token {test : TokenTest τ ν} (scopeless : test.Scopeless) (capture : Option String) :
    Scopeless (.token test capture)
  | span (lengths : List Nat) (capture : Option String) : Scopeless (.span lengths capture)
  | atEnd : Scopeless .atEnd
  | lookahead {inner : Pattern τ ν} (scopeless : Scopeless inner) (hidden : Bool) :
    Scopeless (.lookahead inner hidden)
  | choice {branches : List (Pattern τ ν)} (scopeless : ∀ branch ∈ branches, Scopeless branch) :
    Scopeless (.choice branches)
  | chain {parts : List (Pattern τ ν)} (scopeless : ∀ part ∈ parts, Scopeless part) :
    Scopeless (.chain parts)
  | repeated {inner : Pattern τ ν} (scopeless : Scopeless inner) (min : Nat) (max : Option Nat)
    (step : Nat) : Scopeless (.repeated inner min max step)
  | weighted (run : WeightedRun τ ν) : Scopeless (.weighted run)

/-- Tests only look at the bindings in sight, and what is repeated without an upper end consumes
tokens. -/
inductive Pattern.Productive (sequence : Array τ) : Pattern τ ν → Prop where
  | token {test : TokenTest τ ν} (scopeless : test.Scopeless) (capture : Option String) :
    Productive sequence (.token test capture)
  | span (lengths : List Nat) (capture : Option String) :
    Productive sequence (.span lengths capture)
  | atEnd : Productive sequence .atEnd
  | lookahead {inner : Pattern τ ν} (productive : Productive sequence inner) (hidden : Bool) :
    Productive sequence (.lookahead inner hidden)
  | choice {branches : List (Pattern τ ν)}
    (productive : ∀ branch ∈ branches, Productive sequence branch) :
    Productive sequence (.choice branches)
  | chain {parts : List (Pattern τ ν)} (productive : ∀ part ∈ parts, Productive sequence part) :
    Productive sequence (.chain parts)
  | repeated {inner : Pattern τ ν} (productive : Productive sequence inner) (min : Nat)
    {max : Option Nat} (consumes : max = none → inner.Consumes sequence) (step : Nat) :
    Productive sequence (.repeated inner min max step)
  | weighted (run : WeightedRun τ ν) : Productive sequence (.weighted run)

theorem Pattern.Productive.scopeless {sequence : Array τ} {pattern : Pattern τ ν}
    (productive : pattern.Productive sequence) : pattern.Scopeless := by
  induction productive with
  | token scopeless capture => exact .token scopeless capture
  | span lengths capture => exact .span lengths capture
  | atEnd => exact .atEnd
  | lookahead _ hidden hinner => exact .lookahead hinner hidden
  | choice _ hbranches => exact .choice hbranches
  | chain _ hparts => exact .chain hparts
  | repeated _ min _ step hinner => exact .repeated hinner min _ step
  | weighted run => exact .weighted run

end Meaning

end StackCode
