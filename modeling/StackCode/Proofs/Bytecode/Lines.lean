import StackCode.Bytecode.Basic
import StackCode.Proofs.Bytecode.LineTable
import StackCode.Proofs.Bytecode.Stream

/-!
Decoded bytecode: a stream of instructions with the line starts attached to them.  `Listing` is
what reading bytecode promises, and the last line that starts at or in front of an instruction is
the line that the line table gives for it.
-/

namespace StackCode
namespace Decoded

open Outcome LineTable

/-- The line that starts at `unit`. -/
def startingAt (starts : List LineStart) (unit : Nat) : Option UInt32 :=
  (starts.find? (·.offset = 2 * unit)).map (·.line)

/-- A line starts at an instruction or at the end of the code. -/
def Landing (decoded : List Decoded) (start : LineStart) : Prop :=
  start.offset % 2 = 0 ∧
    (start.offset / 2 = stopFrom 0 decoded ∨ start.offset / 2 ∈ decoded.map (·.offset))

/-- Instructions with each line start attached. -/
def lined (starts : List LineStart) (decoded : List Decoded) : List Decoded :=
  decoded.map fun d => { d with line := startingAt starts d.offset }

theorem offsets_lined (starts : List LineStart) (decoded : List Decoded) :
    (lined starts decoded).map (·.offset) = decoded.map (·.offset) :=
  offsets_map _ (by intro d; rfl) decoded

theorem stopFrom_lined (starts : List LineStart) (unit : Nat) (decoded : List Decoded) :
    stopFrom unit (lined starts decoded) = stopFrom unit decoded :=
  stopFrom_map _ (by intro d; rfl) (by intro d; rfl) unit decoded

theorem Tiled.lined {starts : List LineStart} {unit : Nat} {decoded : List Decoded}
    (h : Tiled unit decoded) : Tiled unit (lined starts decoded) :=
  tiled_map _ (by intro d; rfl) (by intro d; rfl) h

theorem landing_marked {decoded : List Decoded} {start : LineStart} :
    Landing (marked decoded) start ↔ Landing decoded start := by
  rw [Landing, Landing, offsets_marked, stopFrom_marked]

theorem landing_lined {starts : List LineStart} {decoded : List Decoded} {start : LineStart} :
    Landing (lined starts decoded) start ↔ Landing decoded start := by
  rw [Landing, Landing, offsets_lined, stopFrom_lined]

/-! ### Attaching -/

theorem linesByUnit_ok {isStart : Nat → Bool} {stop : Nat} (starts : List LineStart) :
    ∀ (lines : Std.HashMap Nat UInt32),
      (linesByUnit isStart stop starts lines).2 = none ↔
        ∀ start ∈ starts, start.offset % 2 = 0 ∧
          (start.offset / 2 = stop ∨ isStart (start.offset / 2) = true) := by
  induction starts with
  | nil => simp [linesByUnit]
  | cons start rest ih =>
    intro lines
    rw [linesByUnit, List.forall_mem_cons]
    by_cases heven : start.offset % 2 = 0
    · by_cases hstop : start.offset / 2 = stop
      · simp [heven, hstop, ih]
      · by_cases hstart : isStart (start.offset / 2) = true
        · simp [heven, hstop, hstart, ih]
        · simp [heven, hstop, hstart]
    · simp [heven]

theorem getElem?_linesByUnit {isStart : Nat → Bool} {stop unit : Nat} (hunit : unit ≠ stop)
    (starts : List LineStart) :
    ∀ (lines : Std.HashMap Nat UInt32), starts.Pairwise (·.offset < ·.offset) →
      (linesByUnit isStart stop starts lines).2 = none →
      (linesByUnit isStart stop starts lines).1[unit]? =
        (startingAt starts unit).or lines[unit]? := by
  induction starts with
  | nil => intro lines _ _; rfl
  | cons start rest ih =>
    intro lines hascending hok
    obtain ⟨hfirst, hascending⟩ := List.pairwise_cons.mp hascending
    obtain ⟨⟨heven, hland⟩, hrest⟩ := List.forall_mem_cons.mp ((linesByUnit_ok _ _).mp hok)
    rw [linesByUnit]
    by_cases hstop : start.offset / 2 = stop
    · have hne : ¬start.offset = 2 * unit := by omega
      have hskip : startingAt (start :: rest) unit = startingAt rest unit := by
        simp [startingAt, hne]
      simp only [heven, hstop, and_self, if_true]
      rw [hskip]
      exact ih lines hascending ((linesByUnit_ok _ _).mpr hrest)
    · have hstart : isStart (start.offset / 2) = true := by
        rcases hland with h | h
        · exact absurd h hstop
        · exact h
      simp only [heven, hstop, hstart, and_false, and_self, if_true, if_false]
      rw [ih _ hascending ((linesByUnit_ok _ _).mpr hrest), Std.HashMap.getElem?_insert]
      by_cases hhere : start.offset = 2 * unit
      · have hbehind : startingAt rest unit = none := by
          rw [startingAt, Option.map_eq_none_iff, List.find?_eq_none]
          intro other hother
          have := hfirst other hother
          simp only [decide_eq_true_eq]
          omega
        have hsame : start.offset / 2 = unit := by omega
        rw [hbehind, if_pos (by simpa using hsame)]
        simp [startingAt, hhere]
      · have hother : ¬start.offset / 2 = unit := by omega
        simp [startingAt, hhere, hother]

/-- Where no two instructions share an offset, each one gets the line at its offset. -/
theorem setLines_eq {decoded : List Decoded} (hnodup : (decoded.map (·.offset)).Nodup)
    (lines : Std.HashMap Nat UInt32) :
    setLines lines decoded =
      decoded.map fun d => { d with line := lines[d.offset]?.or d.line } := by
  have hfold : ∀ decoded : List Decoded, (decoded.map (·.offset)).Nodup →
      (decoded.foldr setLines.attach ([], lines)).1 =
        (decoded.map fun d => { d with line := lines[d.offset]?.or d.line }) ∧
      ∀ unit, unit ∉ decoded.map (·.offset) →
        (decoded.foldr setLines.attach ([], lines)).2[unit]? = lines[unit]? := by
    intro decoded
    induction decoded with
    | nil => intro _; exact ⟨rfl, fun _ _ => rfl⟩
    | cons d rest ih =>
      intro hnodup
      obtain ⟨hfresh, hnodup⟩ := List.nodup_cons.mp hnodup
      obtain ⟨hdone, hlines⟩ := ih hnodup
      have hd := hlines d.offset hfresh
      rw [List.foldr_cons, List.map_cons]
      cases hline : lines[d.offset]? with
      | none =>
        have hstep : setLines.attach d (rest.foldr setLines.attach ([], lines)) =
            (d :: (rest.foldr setLines.attach ([], lines)).1,
              (rest.foldr setLines.attach ([], lines)).2) := by
          rw [setLines.attach, hd, hline]
        rw [hstep]
        refine ⟨by simp [hdone], fun unit hunit => hlines unit ?_⟩
        exact fun hmem => hunit (List.mem_cons_of_mem _ hmem)
      | some line =>
        have hstep : setLines.attach d (rest.foldr setLines.attach ([], lines)) =
            ({ d with line := some line } :: (rest.foldr setLines.attach ([], lines)).1,
              (rest.foldr setLines.attach ([], lines)).2.erase d.offset) := by
          rw [setLines.attach, hd, hline]
        rw [hstep]
        refine ⟨by simp [hdone], fun unit hunit => ?_⟩
        rw [List.map_cons, List.mem_cons, not_or] at hunit
        rw [Std.HashMap.getElem?_erase, if_neg (by simpa using Ne.symm hunit.1),
          hlines unit hunit.2]
  exact (hfold decoded hnodup).1

/-- Where every start lands on an instruction or at the end, attaching starts to instructions that
have none gives each its own. -/
theorem attachLines_eq {decoded result : List Decoded} {starts : List LineStart}
    (htiled : Tiled 0 decoded) (hfresh : ∀ d ∈ decoded, d.line = none)
    (hascending : starts.Pairwise (·.offset < ·.offset)) :
    attachLines decoded starts = (result, none) ↔
      (∀ start ∈ starts, Landing decoded start) ∧ result = lined starts decoded := by
  have hstop : (decoded.getLast?.map (·.next)).getD 0 = stopFrom 0 decoded :=
    getLast?_next 0 decoded
  have hstart : ∀ unit, (Std.HashSet.ofList (decoded.map (·.offset))).contains unit = true ↔
      unit ∈ decoded.map (·.offset) := by
    intro unit
    rw [Std.HashSet.contains_ofList, List.contains_iff_mem]
  have hland : (linesByUnit (Std.HashSet.ofList (decoded.map (·.offset))).contains
      (stopFrom 0 decoded) starts {}).2 = none ↔ ∀ start ∈ starts, Landing decoded start := by
    simp only [linesByUnit_ok, hstart, Landing]
  have hlines : (linesByUnit (Std.HashSet.ofList (decoded.map (·.offset))).contains
        (stopFrom 0 decoded) starts {}).2 = none →
      setLines (linesByUnit (Std.HashSet.ofList (decoded.map (·.offset))).contains
        (stopFrom 0 decoded) starts {}).1 decoded = lined starts decoded := by
    intro hok
    rw [setLines_eq htiled.nodup, lined]
    refine List.map_congr_left fun d hd => ?_
    have hne : d.offset ≠ stopFrom 0 decoded := Nat.ne_of_lt (htiled.offset_lt_stopFrom d hd)
    rw [getElem?_linesByUnit hne starts {} hascending hok, hfresh d hd]
    simp
  rw [attachLines, hstop]
  show (setLines _ decoded, _) = (result, none) ↔ _
  rw [Prod.mk.injEq]
  constructor
  · rintro ⟨hresult, hok⟩
    exact ⟨hland.mp hok, by rw [← hresult, hlines hok]⟩
  · rintro ⟨hall, hresult⟩
    have hok := hland.mpr hall
    exact ⟨by rw [hresult, hlines hok], hok⟩

/-- Bytecode is read exactly if its code is a stream whose branches and line starts land on its
instructions. -/
theorem ofBytecode_eq_ok {isa : InstructionSet} {bytecode : Bytecode} {result : List Decoded} :
    ofBytecode isa bytecode = .ok result ↔
      ∃ decoded starts, Stream isa 0 bytecode.code decoded ∧
        (∀ unit ∈ targets decoded, unit ∈ decoded.map (·.offset)) ∧
        bytecode.lineStarts = .ok starts ∧ (∀ start ∈ starts, Landing decoded start) ∧
        result = lined starts (marked decoded) := by
  have hattach : ∀ {decoded starts}, Stream isa 0 bytecode.code decoded →
      starts.Pairwise (·.offset < ·.offset) →
      (attachLines (marked decoded) starts = (result, none) ↔
        (∀ start ∈ starts, Landing decoded start) ∧ result = lined starts (marked decoded)) := by
    intro decoded starts hstream hascending
    have hfresh : ∀ d ∈ marked decoded, d.line = none := by
      intro d hd
      obtain ⟨raw, hraw, rfl⟩ := List.mem_map.mp hd
      exact (hstream.wellread raw hraw).line
    simp only [attachLines_eq hstream.tiled.marked hfresh hascending, landing_marked]
  rw [ofBytecode]
  simp only [bind_eq_ok, ofCode_eq_ok]
  constructor
  · rintro ⟨_, ⟨decoded, hstream, htargets, rfl⟩, starts, hstarts, h⟩
    split at h
    · rename_i all hall
      cases h
      obtain ⟨hland, hresult⟩ := (hattach hstream (normal_of_decode hstarts).ascending).mp hall
      exact ⟨decoded, starts, hstream, htargets, hstarts, hland, hresult⟩
    · cases h
  · rintro ⟨decoded, starts, hstream, htargets, hstarts, hland, hresult⟩
    refine ⟨_, ⟨decoded, hstream, htargets, rfl⟩, starts, hstarts, ?_⟩
    rw [(hattach hstream (normal_of_decode hstarts).ascending).mpr ⟨hland, hresult⟩]
    rfl

/-! ### Listings -/

/-- What reading bytecode promises about its instructions and line starts. -/
structure Listing (isa : InstructionSet) (starts : List LineStart) (decoded : List Decoded) :
    Prop where
  tiled : Tiled 0 decoded
  kind : ∀ d ∈ decoded, ∃ kind, isa.operandKind d.opcode = .ok kind ∧
    d.target.isSome = kind.isJump
  argument_lt : ∀ d ∈ decoded, ∀ argument, d.argument = some argument → argument < 0x100000000
  landing : ∀ unit ∈ targets decoded, unit ∈ decoded.map (·.offset)
  isTarget : ∀ d ∈ decoded, d.isTarget = decide (d.offset ∈ targets decoded)
  normal : Normal starts
  starting : ∀ start ∈ starts, Landing decoded start
  line : ∀ d ∈ decoded, d.line = startingAt starts d.offset

theorem listing_of_ofBytecode {isa : InstructionSet} {bytecode : Bytecode}
    {decoded : List Decoded} (h : ofBytecode isa bytecode = .ok decoded) :
    ∃ starts, bytecode.lineStarts = .ok starts ∧ Listing isa starts decoded := by
  obtain ⟨raw, starts, hstream, htargets, hstarts, hland, rfl⟩ := ofBytecode_eq_ok.mp h
  have hoffsets : (lined starts (marked raw)).map (·.offset) = raw.map (·.offset) := by
    rw [offsets_lined, offsets_marked]
  have hsame : targets (lined starts (marked raw)) = targets raw := by
    simp [targets, lined, marked, List.filterMap_map, Function.comp_def]
  have hraw : ∀ d ∈ lined starts (marked raw), ∃ r ∈ raw, d.offset = r.offset ∧
      d.opcode = r.opcode ∧ d.target = r.target ∧ d.argument = r.argument ∧
      d.isTarget = decide (r.offset ∈ targets raw) ∧ d.line = startingAt starts r.offset := by
    intro d hd
    obtain ⟨m, hm, rfl⟩ := List.mem_map.mp hd
    obtain ⟨r, hr, rfl⟩ := List.mem_map.mp hm
    exact ⟨r, hr, rfl, rfl, rfl, rfl, rfl, rfl⟩
  refine ⟨starts, hstarts, ?_, ?_, ?_, ?_, ?_, normal_of_decode hstarts, ?_, ?_⟩
  · exact hstream.tiled.marked.lined
  · intro d hd
    obtain ⟨r, hr, -, hopcode, htarget, -⟩ := hraw d hd
    rw [hopcode, htarget]
    exact (hstream.wellread r hr).kind
  · intro d hd
    obtain ⟨r, hr, -, -, -, hargument, -⟩ := hraw d hd
    rw [hargument]
    exact (hstream.wellread r hr).argument_lt
  · rw [hsame, hoffsets]
    exact htargets
  · intro d hd
    obtain ⟨r, -, hoffset, -, -, -, hmark, -⟩ := hraw d hd
    rw [hsame, hoffset, hmark]
  · intro start hstart
    exact landing_lined.mpr (landing_marked.mpr (hland start hstart))
  · intro d hd
    obtain ⟨r, -, hoffset, -, -, -, -, hline⟩ := hraw d hd
    rw [hoffset, hline]

/-- The line that is active behind some instructions. -/
def lastLine (decoded : List Decoded) : Option UInt32 :=
  decoded.foldl (fun line d => d.line.or line) none

theorem lastLine_append (decoded : List Decoded) (d : Decoded) :
    lastLine (decoded ++ [d]) = d.line.or (lastLine decoded) := by
  rw [lastLine, lastLine, List.foldl_append]
  rfl

/-- Where no line starts between two bytes, one is active at the second only if it starts there
or is active at the first. -/
theorem lineAt_of_no_start {starts : List LineStart} {before here : Nat} (hlt : before < here)
    (hascending : starts.Pairwise (·.offset < ·.offset))
    (hnone : ∀ start ∈ starts, before < start.offset → here ≤ start.offset) :
    lineAt starts here =
      ((starts.find? (·.offset = here)).map (·.line)).or (lineAt starts before) := by
  induction starts with
  | nil => rfl
  | cons start rest ih =>
    obtain ⟨hfirst, hascending⟩ := List.pairwise_cons.mp hascending
    obtain ⟨hstart, hnone⟩ := List.forall_mem_cons.mp hnone
    have hrest := ih hascending hnone
    rw [lineAt_cons, lineAt_cons, List.find?_cons]
    by_cases hhere : start.offset = here
    · have hbehind : lineAt rest here = none :=
        lineAt_eq_none fun other hother => by have := hfirst other hother; omega
      rw [if_pos (by omega), if_neg (by omega), hbehind]
      simp [hhere]
    · simp only [hhere, decide_false]
      rw [hrest]
      by_cases hbefore : start.offset ≤ before
      · rw [if_pos (by omega), if_pos hbefore, Option.or_assoc]
      · have := hstart (by omega)
        rw [if_neg (by omega), if_neg hbefore]

/-- No line starts strictly between two neighbours. -/
theorem Listing.le_of_start_past {isa : InstructionSet} {starts : List LineStart}
    {decoded front rest : List Decoded} {previous d : Decoded} (h : Listing isa starts decoded)
    (hsplit : decoded = front ++ previous :: d :: rest) :
    previous.offset < d.offset ∧ ∀ start ∈ starts, 2 * previous.offset < start.offset →
      2 * d.offset ≤ start.offset := by
  have hpairwise := h.tiled.pairwise
  rw [hsplit, List.map_append, List.map_cons, List.map_cons, List.pairwise_append] at hpairwise
  obtain ⟨-, hbehind, hfront⟩ := hpairwise
  obtain ⟨hprev, hbehind⟩ := List.pairwise_cons.mp hbehind
  obtain ⟨hd, -⟩ := List.pairwise_cons.mp hbehind
  have hlt : previous.offset < d.offset := hprev _ List.mem_cons_self
  refine ⟨hlt, fun start hstart hafter => ?_⟩
  obtain ⟨heven, hland⟩ := h.starting start hstart
  have hstop := h.tiled.offset_lt_stopFrom d (by rw [hsplit]; simp)
  rcases hland with hland | hland
  · omega
  · rw [hsplit, List.map_append, List.map_cons, List.map_cons, List.mem_append, List.mem_cons,
      List.mem_cons] at hland
    rcases hland with hland | hland | hland | hland
    · have := hfront _ hland previous.offset List.mem_cons_self
      omega
    · omega
    · omega
    · have := hd _ hland
      omega

/-- The last line that starts at or in front of an instruction is the one that the table gives
for it. -/
theorem Listing.lastLine_eq {isa : InstructionSet} {starts : List LineStart}
    {decoded : List Decoded} (h : Listing isa starts decoded) :
    ∀ {front rest : List Decoded} {d : Decoded}, decoded = front ++ d :: rest →
      lastLine (front ++ [d]) = lineAt starts (2 * d.offset) := by
  intro front
  induction front using List.reverseRecOn with
  | nil =>
    intro rest d hsplit
    obtain ⟨hfirst, hascending, -⟩ := h.normal
    have hd : d.offset = 0 := by
      have htiled := h.tiled
      rw [hsplit] at htiled
      exact htiled.1
    cases hstarts : starts with
    | nil => rw [hstarts] at hfirst; cases hfirst
    | cons first others =>
      rw [hstarts] at hfirst hascending
      have hzero : first.offset = 0 := by simpa using hfirst
      have hbehind : lineAt others 0 = none := by
        refine lineAt_eq_none fun other hother => ?_
        have := (List.pairwise_cons.mp hascending).1 other hother
        omega
      have hline := h.line d (by rw [hsplit]; simp)
      rw [lastLine_append, hline, hd, lineAt_cons, if_pos (by omega), Nat.mul_zero, hbehind,
        hstarts]
      simp [startingAt, hzero]
  | append_singleton front previous ih =>
    intro rest d hsplit
    rw [List.append_assoc, List.singleton_append] at hsplit
    have hprevious := ih hsplit
    have hline := h.line d (by rw [hsplit]; simp)
    obtain ⟨hlt, hnone⟩ := h.le_of_start_past hsplit
    rw [lastLine_append, hprevious, hline,
      lineAt_of_no_start (by omega) h.normal.ascending hnone]
    rfl

end Decoded
end StackCode
