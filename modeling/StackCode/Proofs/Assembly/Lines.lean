import StackCode.Assembly.Basic
import StackCode.Proofs.Assembly.Slots
import StackCode.Proofs.Bytecode.Lines

/-!
The line starts of an assembly.  They are read off the units of the slots and the lines of their
blocks, and they keep the line of every slot that has one.
-/

namespace StackCode
namespace Flat

open LineTable

/-- The line starts of slots at these units, behind line `current`. -/
def marks (current : Option UInt32) : List (Nat × Option UInt32) → List LineStart
  | [] => []
  | (_, none) :: rest => marks current rest
  | (unit, some line) :: rest =>
    if current = some line then marks current rest
    else { offset := 2 * unit, line } :: marks (some line) rest

theorem marks_of_changes (offsets : Array Nat) (tags : List (Option UInt32)) :
    ∀ index current, index + tags.length ≤ offsets.size →
      ((changes index current tags).map fun (index, line) =>
          ({ offset := 2 * (offsets[index]?.getD 0), line } : LineStart)) =
        marks current ((offsets.toList.drop index).zip tags) := by
  induction tags with
  | nil =>
    intro index current _
    rw [List.zip_nil_right]
    rfl
  | cons tag rest ih =>
    intro index current hsize
    rw [List.length_cons] at hsize
    have hlt : index < offsets.toList.length := by
      rw [Array.length_toList]
      omega
    have hat : offsets[index]?.getD 0 = offsets.toList[index] := by
      rw [← Array.getElem?_toList, List.getElem?_eq_getElem hlt]
      rfl
    rw [List.drop_eq_getElem_cons hlt, List.zip_cons_cons]
    have hrest : ∀ current, _ := fun current => ih (index + 1) current (by omega)
    cases tag with
    | none => rw [changes, marks, hrest]
    | some line =>
      rw [changes, marks]
      by_cases hsame : current = some line
      · rw [if_pos hsame, if_pos hsame, hrest]
      · rw [if_neg hsame, if_neg hsame, List.map_cons, hrest, ← hat]

/-- The line starts of an assembly, by the units and lines of its slots. -/
theorem lineStartsAt_eq {flat : Flat} {blocks : List BasicBlock} {offsets : Array Nat}
    (hlines : flat.lines = lineStarts none (placed 0 blocks))
    (hsize : BasicBlock.totalSize blocks ≤ offsets.size) :
    flat.lineStartsAt offsets = marks none (offsets.toList.zip (tags blocks)) := by
  rw [lineStartsAt, hlines, lineStarts_placed,
    marks_of_changes offsets (tags blocks) 0 none (by rw [length_tags]; omega), List.drop_zero]

theorem mem_marks {pairs : List (Nat × Option UInt32)} {start : LineStart} :
    ∀ {current}, start ∈ marks current pairs → ∃ pair ∈ pairs, start.offset = 2 * pair.1 := by
  induction pairs with
  | nil =>
    intro current h
    cases h
  | cons pair rest ih =>
    obtain ⟨unit, tag⟩ := pair
    have hlater : ∀ {current}, start ∈ marks current rest →
        ∃ pair ∈ (unit, tag) :: rest, start.offset = 2 * pair.1 := by
      intro current h
      obtain ⟨pair, hpair, hoffset⟩ := ih h
      exact ⟨pair, List.mem_cons_of_mem _ hpair, hoffset⟩
    intro current h
    cases tag with
    | none => exact hlater h
    | some line =>
      rw [marks] at h
      split at h
      · exact hlater h
      · rcases List.mem_cons.mp h with rfl | h
        · exact ⟨_, List.mem_cons_self, rfl⟩
        · exact hlater h

theorem pairwise_marks {pairs : List (Nat × Option UInt32)}
    (h : pairs.Pairwise (·.1 < ·.1)) :
    ∀ current, (marks current pairs).Pairwise (·.offset < ·.offset) := by
  induction pairs with
  | nil =>
    intro current
    exact .nil
  | cons pair rest ih =>
    obtain ⟨hfirst, hrest⟩ := List.pairwise_cons.mp h
    obtain ⟨unit, tag⟩ := pair
    intro current
    cases tag with
    | none => exact ih hrest current
    | some line =>
      rw [marks]
      split
      · exact ih hrest current
      · refine List.pairwise_cons.mpr ⟨fun start hstart => ?_, ih hrest _⟩
        obtain ⟨later, hlater, hoffset⟩ := mem_marks hstart
        have := hfirst later hlater
        simp only at this ⊢
        omega

/-! ### Active lines -/

/-- The last line among tags. -/
def lastTag (tags : List (Option UInt32)) : Option UInt32 := tags.reverse.findSome? id

theorem lastTag_append (front back : List (Option UInt32)) :
    lastTag (front ++ back) = (lastTag back).or (lastTag front) := by
  rw [lastTag, List.reverse_append, List.findSome?_append, ← lastTag, ← lastTag]

theorem lastTag_singleton (tag : Option UInt32) : lastTag [tag] = tag := by
  cases tag <;> rfl

theorem lastTag_cons (tag : Option UInt32) (rest : List (Option UInt32)) :
    lastTag (tag :: rest) = (lastTag rest).or tag := by
  rw [← List.singleton_append, lastTag_append, lastTag_singleton]

/-- Marks further on do not matter to a unit. -/
theorem lineAt_marks_past {unit : Nat} {pairs : List (Nat × Option UInt32)}
    (h : ∀ pair ∈ pairs, unit < pair.1) (current : Option UInt32) :
    lineAt (marks current pairs) (2 * unit) = none := by
  refine lineAt_eq_none fun start hstart => ?_
  obtain ⟨later, hlater, hoffset⟩ := mem_marks hstart
  have := h later hlater
  omega

/-- The line of the last tag up to a unit is active there. -/
theorem lineAt_marks {pairs : List (Nat × Option UInt32)} {unit : Nat} {tag : Option UInt32} :
    ∀ {index current}, pairs.Pairwise (·.1 < ·.1) → pairs[index]? = some (unit, tag) →
      (lineAt (marks current pairs) (2 * unit)).or current =
        (lastTag ((pairs.map (·.2)).take (index + 1))).or current := by
  induction pairs with
  | nil =>
    intro index current _ hat
    cases hat
  | cons pair rest ih =>
    intro index current h hat
    obtain ⟨hpast, hrest⟩ := List.pairwise_cons.mp h
    obtain ⟨previous, other⟩ := pair
    rw [List.map_cons, List.take_succ_cons, lastTag_cons, Option.or_assoc]
    cases index with
    | zero =>
      obtain ⟨rfl, rfl⟩ : previous = unit ∧ other = tag := by simpa using hat
      have hlater : ∀ current, lineAt (marks current rest) (2 * previous) = none :=
        lineAt_marks_past hpast
      rw [List.take_zero, show lastTag [] = none from rfl, Option.none_or]
      cases other with
      | none => rw [marks, hlater]
      | some line =>
        rw [marks]
        split
        · rename_i hsame
          rw [hlater, hsame]
          rfl
        · rw [lineAt_cons, if_pos (Nat.le_refl _), hlater]
          rfl
    | succ index =>
      have hat : rest[index]? = some (unit, tag) := hat
      cases other with
      | none => exact ih hrest hat
      | some other =>
        rw [marks, Option.some_or]
        split
        · rename_i hsame
          rw [ih hrest hat, hsame]
        · have hlt : previous < unit := hpast _ (List.mem_of_getElem? hat)
          rw [lineAt_cons, if_pos (by simp only; omega), ih hrest hat, Option.or_assoc,
            Option.some_or]

/-- The first line among the tags is the first that starts. -/
theorem head?_marks (pairs : List (Nat × Option UInt32)) :
    (marks none pairs).head?.map (·.line) = (pairs.map (·.2)).findSome? id := by
  induction pairs with
  | nil => rfl
  | cons pair rest ih =>
    obtain ⟨unit, tag⟩ := pair
    cases tag with
    | none => exact ih
    | some line => rfl

/-! ### Marks of active lines -/

/-- A unit that stays in the line is not marked. -/
theorem marks_same (current : Option UInt32) (unit : Nat) (rest : List (Nat × Option UInt32)) :
    marks current ((unit, current) :: rest) = marks current rest := by
  cases current with
  | none => rfl
  | some line => rw [marks, if_pos rfl]

/-- Starts past the first unit stand at the other units. -/
theorem at_others {unit : Nat} {others : List Nat} {starts : List LineStart}
    (hunits : ∀ start ∈ starts, ∃ place ∈ unit :: others, start.offset = 2 * place)
    (hpast : ∀ start ∈ starts, 2 * unit < start.offset) :
    ∀ start ∈ starts, ∃ place ∈ others, start.offset = 2 * place := by
  intro start hstart
  obtain ⟨place, hplace, hat⟩ := hunits start hstart
  have hlt : 2 * unit < start.offset := hpast start hstart
  rcases List.mem_cons.mp hplace with rfl | hplace
  · omega
  · exact ⟨place, hplace, hat⟩

/-- Where no line starts at the first unit, all lines start past it. -/
theorem past_first {unit : Nat} {others : List Nat} {starts : List LineStart}
    (hfirst : ∀ other ∈ others, unit < other) (hstarts : starts.Pairwise (·.offset < ·.offset))
    (hunits : ∀ start ∈ starts, ∃ place ∈ unit :: others, start.offset = 2 * place)
    (hnone : ¬ ∃ start ∈ starts.head?, start.offset = 2 * unit) :
    ∀ start ∈ starts, 2 * unit < start.offset := by
  cases starts with
  | nil => exact fun _ hstart => absurd hstart List.not_mem_nil
  | cons head rest =>
    have hhead : 2 * unit < head.offset := by
      obtain ⟨place, hplace, hat⟩ := hunits head List.mem_cons_self
      rcases List.mem_cons.mp hplace with rfl | hplace
      · exact absurd ⟨head, rfl, hat⟩ hnone
      · have hlt : unit < place := hfirst place hplace
        omega
    intro start hstart
    rcases List.mem_cons.mp hstart with rfl | hstart
    · exact hhead
    · have hlt : head.offset < start.offset := (List.pairwise_cons.mp hstarts).1 start hstart
      omega

/-- Starts in normal form are the marks of units that are tagged with their active lines. -/
theorem marks_lineAt (units : List Nat) :
    ∀ (starts : List LineStart) (current : Option UInt32), units.Pairwise (· < ·) →
      starts.Pairwise (·.offset < ·.offset) → starts.IsChain (·.line ≠ ·.line) →
      (∀ start ∈ starts, ∃ unit ∈ units, start.offset = 2 * unit) →
      (∀ start ∈ starts.head?, current ≠ some start.line) →
      marks current (units.map fun unit => (unit, (lineAt starts (2 * unit)).or current)) =
        starts := by
  induction units with
  | nil =>
    intro starts current _ _ _ hunits _
    cases starts with
    | nil => rfl
    | cons start rest =>
      obtain ⟨unit, hunit, -⟩ := hunits start List.mem_cons_self
      cases hunit
  | cons unit others ih =>
    intro starts current hascending hstarts hchanging hunits hfresh
    obtain ⟨hfirst, hothers⟩ := List.pairwise_cons.mp hascending
    rw [List.map_cons]
    by_cases hhere : ∃ start ∈ starts.head?, start.offset = 2 * unit
    · obtain ⟨start, hhead, hoffset⟩ := hhere
      obtain ⟨rest, rfl⟩ : ∃ rest, starts = start :: rest := by
        cases starts with
        | nil => cases hhead
        | cons other rest => exact ⟨rest, by rw [Option.some.inj hhead]⟩
      obtain ⟨hbehind, hrest⟩ := List.pairwise_cons.mp hstarts
      have hpast : ∀ other ∈ rest, 2 * unit < other.offset :=
        fun other hother => hoffset ▸ hbehind other hother
      have hhere : lineAt (start :: rest) (2 * unit) = some start.line := by
        rw [lineAt_cons, if_pos (by omega), lineAt_eq_none hpast]
        rfl
      -- From here on the line of `start` stands in for the line in front of the units.
      have hthere : ∀ other ∈ others, ((other, (lineAt (start :: rest) (2 * other)).or current) :
          Nat × Option UInt32) = (other, (lineAt rest (2 * other)).or (some start.line)) := by
        intro other hother
        have hlt : unit < other := hfirst other hother
        rw [lineAt_cons, if_pos (by omega)]
        cases lineAt rest (2 * other) <;> rfl
      have hat : ∀ other ∈ rest, ∃ place ∈ others, other.offset = 2 * place :=
        at_others (fun other hother => hunits other (List.mem_cons_of_mem _ hother)) hpast
      rw [hhere, Option.some_or, marks, if_neg (hfresh start hhead), List.map_congr_left hthere,
        ih rest (some start.line) hothers hrest hchanging.tail hat ?_, ← hoffset]
      intro other hother
      cases rest with
      | nil => cases hother
      | cons second rest =>
        cases hother
        intro hsame
        exact (List.isChain_cons_cons.mp hchanging).1 (Option.some.inj hsame)
    · have hpast : ∀ start ∈ starts, 2 * unit < start.offset :=
        past_first hfirst hstarts hunits hhere
      rw [lineAt_eq_none hpast, Option.none_or, marks_same]
      exact ih starts current hothers hstarts hchanging (at_others hunits hpast) hfresh

end Flat
end StackCode
