import StackCode.InstructionSet.Small
import StackCode.Proofs.Graph.Rebuild

/-!
Partitions.  The blocks of a graph that was read from code cut its instructions into pieces that
are not empty, one behind the other, and each block falls through to the one behind it unless
execution stops at its end.
-/

namespace StackCode

/-- Execution does not continue behind the last of some opcodes. -/
def InstructionSet.stopsAfter (isa : InstructionSet) (opcodes : List UInt8) : Bool :=
  opcodes.getLast?.any isa.isTerminal

theorem InstructionSet.stopsAfter_append (isa : InstructionSet) (opcodes : List UInt8)
    (last : UInt8) : isa.stopsAfter (opcodes ++ [last]) = isa.isTerminal last := by
  rw [stopsAfter, List.getLast?_concat, Option.any_some]

/-- Execution does not continue behind a block. -/
def BasicBlock.stops (isa : InstructionSet) (block : BasicBlock) : Bool :=
  block.all.getLast?.any fun instruction => instruction.isTerminal isa

namespace Graph

open Outcome

def Item.opcode : Item → UInt8
  | plain instruction => instruction.opcode
  | branch opcode _ => opcode

theorem Item.Of.opcode_eq {isa : InstructionSet} {metadata : Metadata} {item : Item} {d : Decoded}
    (h : item.Of isa metadata d) : item.opcode = d.opcode := by
  cases item with
  | plain instruction =>
    obtain ⟨_, -, -, hopcode, -⟩ := h
    exact hopcode
  | branch opcode target =>
    obtain ⟨_, -, -, hopcode, -⟩ := h
    exact hopcode

def Draft.stops (isa : InstructionSet) (draft : Draft) : Bool :=
  isa.stopsAfter (draft.items.map Item.opcode)

theorem stops_of_toBlock (isa : InstructionSet) {labels : Std.HashMap Nat Label} {draft : Draft}
    {block : BasicBlock} (h : draft.toBlock labels = .ok block) :
    block.stops isa = draft.stops isa := by
  obtain ⟨-, -, hitems⟩ := items_of_toBlock h
  have hopcodes : draft.items.map Item.opcode = block.all.map (·.opcode) := by
    refine map_eq_of_forall₂ hitems fun item _ instruction hbecomes => ?_
    cases item with
    | plain held => exact congrArg Instruction.opcode hbecomes.symm
    | branch opcode target =>
      obtain ⟨label, -, rfl⟩ := hbecomes
      rfl
  rw [Draft.stops, hopcodes, InstructionSet.stopsAfter, List.getLast?_map, Option.any_map]
  rfl

theorem fallthrough_of_toBlock {labels : Std.HashMap Nat Label} {draft : Draft}
    {block : BasicBlock} (h : draft.toBlock labels = .ok block) :
    block.fallthrough = if draft.continues then some (.start (block.id + 1)) else none := by
  obtain ⟨jump, -, -, rfl⟩ := toBlock_eq_ok.mp h
  rfl

namespace Scan

/-! ### Links -/

/-- The last of some closed blocks, if execution continues behind it. -/
def waitingFor (isa : InstructionSet) : List Draft → Option Nat
  | [] => none
  | draft :: _ => if draft.stops isa then none else some draft.id

/-- A block is not empty, and it continues unless execution stops at its end. -/
def Settled (isa : InstructionSet) (draft : Draft) : Prop :=
  draft.items ≠ [] ∧ draft.continues = !draft.stops isa

/-- The blocks of a scan are filled and linked: a block continues with the one behind it unless
execution stops at its end, and the last one waits for the next. -/
structure Linked (isa : InstructionSet) (scan : Scan) : Prop where
  filled : ∀ draft ∈ scan.recent.head?, draft.items ≠ []
  settled : ∀ draft ∈ scan.recent.tail, Settled isa draft
  current : ∀ draft, scan.current = some draft → draft.stops isa = false
  waiting : scan.current = none → scan.waiting = waitingFor isa scan.closed

variable {isa : InstructionSet} {scan next : Scan}

theorem linked_start (isa : InstructionSet) : start.Linked isa where
  filled := by simp [start, recent]
  settled := by simp [start, recent]
  current := by simp [start]
  waiting := fun _ => rfl

theorem Linked.close (h : scan.Linked isa) (line : Option UInt32)
    (hclose : Scan.close { scan with line } = .ok next) : next.Linked isa ∧ next.current = none := by
  obtain ⟨closed, current, waiting, oldLine, labels⟩ := scan
  obtain ⟨hfilled, hsettled, hcurrent, hwaiting⟩ := h
  cases current with
  | none =>
    cases hclose
    exact ⟨⟨hfilled, hsettled, hcurrent, hwaiting⟩, rfl⟩
  | some draft =>
    cases waiting with
    | some other => cases hclose
    | none =>
      cases hclose
      refine ⟨⟨hfilled, hsettled, by simp, fun _ => ?_⟩, rfl⟩
      rw [waitingFor, hcurrent draft rfl]
      rfl

/-- Cuts keep the links, and in front of a target there is no block that has begun. -/
theorem Linked.enters (h : scan.Linked isa) {granularity : Granularity} {d : Decoded}
    {entered : Scan} (henters : scan.Enters granularity d entered) :
    entered.Linked isa ∧ (d.isTarget = true → granularity.splitAtTargets = true →
      ∀ draft, entered.current = some draft → draft.body = #[]) := by
  obtain ⟨first, hline, htarget⟩ := henters
  have hfirst : first.Linked isa := by
    rw [enterLine.eq_def] at hline
    split at hline
    · cases hline
      exact h
    · split at hline
      · cases hline
        exact h
      · exact (h.close _ hline).1
  rw [enterTarget] at htarget
  split at htarget
  · obtain ⟨hlinked, hnone⟩ := hfirst.close first.line htarget
    exact ⟨hlinked, fun _ _ draft hdraft => by rw [hnone] at hdraft; cases hdraft⟩
  · -- There is no cut in front of an instruction that is no target, nor behind an empty block.
    rename_i hstays
    cases htarget
    refine ⟨hfirst, fun hmark hsplit draft hdraft => ?_⟩
    simpa [hmark, hsplit, hdraft] using hstays

theorem settled_continueTo {drafts : List Draft}
    (hlast : ∀ draft ∈ drafts.head?, draft.items ≠ [] ∧ draft.continues = false)
    (hothers : ∀ draft ∈ drafts.tail, Settled isa draft) :
    ∀ draft ∈ continueTo (waitingFor isa drafts) drafts, Settled isa draft := by
  cases drafts with
  | nil => exact fun draft hdraft => absurd hdraft List.not_mem_nil
  | cons last others =>
    obtain ⟨hfilled, hcontinues⟩ := hlast last rfl
    -- The last block waits exactly if execution does not stop at its end.
    rw [waitingFor, continueTo]
    cases hstops : last.stops isa with
    | true =>
      rw [if_pos rfl, if_neg (by simp)]
      refine List.forall_mem_cons.mpr ⟨⟨hfilled, ?_⟩, hothers⟩
      rw [hcontinues, hstops]
      rfl
    | false =>
      rw [if_neg Bool.false_ne_true, if_pos rfl]
      exact List.forall_mem_cons.mpr ⟨⟨hfilled, congrArg (!·) hstops.symm⟩, hothers⟩

/-- All blocks in front of one that is opened are settled. -/
theorem Linked.openBlock (h : scan.Linked isa) (hsound : scan.Sound) {draft : Draft} {rest : Scan}
    (hopen : scan.openBlock = (draft, rest)) : ∀ other ∈ rest.closed, Settled isa other := by
  obtain ⟨closed, current, waiting, line, labels⟩ := scan
  obtain ⟨hfilled, hsettled, -, hwaiting⟩ := h
  cases current with
  | some draft =>
    cases hopen
    exact hsettled
  | none =>
    cases hopen
    obtain rfl : waiting = waitingFor isa closed := hwaiting rfl
    exact settled_continueTo (fun last hlast => ⟨hfilled last hlast, hsound.last last hlast⟩)
      hsettled

/-- A block that takes an item stops execution if the item does. -/
theorem stops_of_items (isa : InstructionSet) {draft : Draft} {items : List Item} {item : Item}
    (h : draft.items = items ++ [item]) :
    draft.items ≠ [] ∧ draft.stops isa = isa.isTerminal item.opcode := by
  rw [Draft.stops, h, List.map_append, List.map_singleton, InstructionSet.stopsAfter_append]
  exact ⟨List.concat_ne_nil _ _, rfl⟩

/-- Taking an item keeps the links. -/
theorem linked_put {draft : Draft} {rest : Scan} {opcode : UInt8} {item : Item}
    (hclosed : ∀ other ∈ rest.closed, Settled isa other) (hbranch : draft.branch = none)
    (hcurrent : rest.current = none) (hopcode : item.opcode = opcode) :
    (put isa draft rest opcode item).Linked isa := by
  obtain ⟨closed, current, waiting, line, labels⟩ := rest
  simp only at hclosed hcurrent
  subst hcurrent hopcode
  cases item with
  | plain instruction =>
    have htaken : ({ draft with body := draft.body.push instruction } : Draft).items =
        draft.items ++ [.plain instruction] := by simp [Draft.items, hbranch]
    obtain ⟨hfilled, hstops⟩ := stops_of_items isa htaken
    rw [put]
    split
    · rename_i hterminal
      rw [hterminal] at hstops
      refine ⟨by simpa [recent] using hfilled, hclosed, by simp, fun _ => ?_⟩
      rw [waitingFor, hstops]
      rfl
    · rename_i hterminal
      rw [Bool.eq_false_of_not_eq_true hterminal] at hstops
      exact ⟨by simpa [recent] using hfilled, hclosed, by simpa using hstops, by simp⟩
  | branch held target =>
    have htaken : ({ draft with branch := some (held, target) } : Draft).items =
        draft.items ++ [.branch held target] := by simp [Draft.items, hbranch]
    obtain ⟨hfilled, hstops⟩ := stops_of_items isa htaken
    refine ⟨by simpa [recent, put] using hfilled, hclosed, by simp [put], fun _ => ?_⟩
    rw [put, waitingFor, hstops]
    rfl

/-! ### Steps and runs -/

/-- A step keeps the links, wherever it cuts. -/
theorem Linked.step {metadata : Metadata} {granularity : Granularity} {d : Decoded}
    (h : scan.Linked isa) (hsound : scan.Sound)
    (hstep : scan.step isa metadata granularity d = .ok next) : next.Linked isa := by
  obtain ⟨entered, draft, rest, henters, hentered, -, -, -, hopen, hread⟩ := hsound.step_eq d
  obtain ⟨item, hitem, rfl⟩ := map_eq_ok.mp (hread.symm.trans hstep)
  obtain ⟨hlinked, -⟩ := h.enters henters
  obtain ⟨-, hbranch, -, -, hcurrent, -⟩ := hentered.openBlock hopen
  have hsettled : ∀ other ∈ rest.closed, Settled isa other := hlinked.openBlock hentered hopen
  have hnoted : (note draft d.offset rest).current = none := hcurrent
  exact linked_put hsettled hbranch hnoted (Item.read_eq_ok.mp hitem).opcode_eq

/-- What a scan keeps: its links, and that targets it cuts in front of start a block. -/
structure Cut (isa : InstructionSet) (granularity : Granularity) (front : List Decoded)
    (scan : Scan) : Prop where
  sound : scan.Sound
  linked : scan.Linked isa
  begins : granularity.splitAtTargets = true → ∀ d ∈ front, d.isTarget = true →
    ∀ label, scan.labels[d.offset]? = some label → label.index = 0

theorem body_openBlock (h : ∀ draft, scan.current = some draft → draft.body = #[]) :
    scan.openBlock.1.body = #[] := by
  obtain ⟨closed, current, waiting, line, labels⟩ := scan
  cases current with
  | none => rfl
  | some draft => exact h draft rfl

theorem labels_put (isa : InstructionSet) (draft : Draft) (rest : Scan) (opcode : UInt8)
    (item : Item) : (put isa draft rest opcode item).labels = rest.labels := by
  cases item with
  | plain instruction =>
    rw [put]
    split <;> rfl
  | branch held target => rfl

theorem cut_start (isa : InstructionSet) (granularity : Granularity) :
    Cut isa granularity [] start :=
  ⟨sound_start, linked_start isa, by simp⟩

theorem Cut.step {metadata : Metadata} {granularity : Granularity} {front : List Decoded}
    {d : Decoded} (h : Cut isa granularity front scan) (hfresh : d.offset ∉ front.map (·.offset))
    (hstep : scan.step isa metadata granularity d = .ok next) :
    Cut isa granularity (front ++ [d]) next := by
  refine ⟨(h.sound.step hstep).1, h.linked.step h.sound hstep, ?_⟩
  obtain ⟨entered, draft, rest, henters, hentered, -, -, hlabels, hopen, hread⟩ := h.sound.step_eq d
  obtain ⟨item, -, rfl⟩ := map_eq_ok.mp (hread.symm.trans hstep)
  obtain ⟨-, hfirst⟩ := h.linked.enters henters
  obtain ⟨-, -, -, -, -, -, -, hkept, -⟩ := hentered.openBlock hopen
  intro hsplit other hother hmark label hlabel
  rw [labels_put, note, hkept, hlabels, Std.HashMap.getElem?_insert] at hlabel
  rcases List.mem_append.mp hother with hother | hother
  · have hne : d.offset ≠ other.offset := fun hsame =>
      hfresh (hsame ▸ List.mem_map_of_mem hother)
    rw [if_neg (by simpa using hne)] at hlabel
    exact h.begins hsplit other hother hmark label hlabel
  · rw [List.mem_singleton.mp hother] at hmark hlabel
    rw [if_pos (by simp), Option.some.injEq] at hlabel
    have hbody := body_openBlock (hfirst hmark hsplit)
    rw [hopen] at hbody
    rw [← hlabel]
    exact congrArg Array.size hbody

theorem Cut.foldlM {metadata : Metadata} {granularity : Granularity} {decoded : List Decoded}
    (hnodup : (decoded.map (·.offset)).Nodup)
    (h : decoded.foldlM (Scan.step isa metadata granularity) start = .ok scan) :
    Cut isa granularity decoded scan :=
  foldlM_fresh hnodup (cut_start isa granularity)
    (fun _ _ _ _ hfresh hcut hstep => hcut.step hfresh hstep) h

/-- All drafts of a scan but the last are settled. -/
theorem Cut.exists_last {granularity : Granularity} {decoded : List Decoded}
    (h : Cut isa granularity decoded scan) :
    ∃ front last, scan.drafts = front ++ [last] ∧ (∀ draft ∈ front, Settled isa draft) ∧
      last.continues = false ∧ (scan.recent ≠ [] → last.items ≠ []) := by
  rcases drafts_eq scan with hdrafts | ⟨hrecent, draft, hdrafts, -, -, -, hcontinues, -⟩
  · obtain ⟨hsound, ⟨hfilled, hsettled, -, -⟩, -⟩ := h
    have hsome := (ordered_drafts hsound).ne_nil
    have hlast := hsound.last
    rw [hdrafts] at hsome
    cases hrecent : scan.recent with
    | nil => exact absurd (by rw [hrecent]; rfl) hsome
    | cons last front =>
      rw [hrecent] at hdrafts hfilled hsettled hlast
      refine ⟨front.reverse, last, hdrafts.trans List.reverse_cons, fun draft hdraft => ?_,
        hlast last rfl, fun _ => hfilled last rfl⟩
      exact hsettled draft (List.mem_reverse.mp hdraft)
  · exact ⟨[], draft, hdrafts, by simp, hcontinues, fun hsome => absurd hrecent hsome⟩

end Scan

/-! ### Graphs -/

/-- A graph whose blocks, in layout order, partition the instructions it was read from.  A branch is
aimed at an instruction of some block, and at the first one where code is cut at targets. -/
structure Partition (isa : InstructionSet) (metadata : Metadata) (granularity : Granularity)
    (decoded : List Decoded) (graph : Graph) (blocks : List BasicBlock) : Prop
    extends Rebuilt isa metadata decoded graph blocks where
  nodes : graph.blocks = blocks.map fun block => (block.id, .basic block)
  entry : graph.entry = 1
  ids : blocks.map (·.id) = List.range' 1 blocks.length
  nonempty : blocks ≠ []
  filled : decoded ≠ [] → ∀ block ∈ blocks, block.isEmpty = false
  falls : ∀ index block, blocks[index]? = some block → block.fallthrough =
    if index + 1 < blocks.length ∧ block.stops isa = false then some (.start (block.id + 1))
    else none
  inside : ∀ block ∈ blocks, ∀ jump ∈ block.jump, ∀ label, jump.label? = some label →
    (∃ aimed ∈ blocks, aimed.id = label.block ∧ label.index < aimed.size) ∧
      (granularity.splitAtTargets = true → label.index = 0)

theorem exists_draft {scan : Scan} {piece : Piece} (h : piece ∈ scan.pieces) :
    ∃ draft ∈ scan.drafts, draft.piece = piece := by
  rcases pieces_drafts scan with hpieces | ⟨hnone, -⟩
  · exact List.mem_map.mp (hpieces ▸ h)
  · rw [hnone] at h
    cases h

section Blocks

variable {isa : InstructionSet} {metadata : Metadata} {granularity : Granularity}
  {decoded : List Decoded} {scan : Scan} {blocks : List BasicBlock}
  (hblocks : List.Forall₂ (fun draft block => draft.toBlock scan.labels = .ok block) scan.drafts
    blocks)
include hblocks

/-- A block falls through to the one behind it exactly if execution continues there. -/
theorem falls_of_cut (hcut : scan.Cut isa granularity decoded) {index : Nat} {block : BasicBlock}
    (hblock : blocks[index]? = some block) :
    block.fallthrough =
      if index + 1 < blocks.length ∧ block.stops isa = false then some (.start (block.id + 1))
      else none := by
  obtain ⟨front, last, hdrafts, hsettled, hlast, -⟩ := hcut.exists_last
  rw [hdrafts] at hblocks
  obtain ⟨left, right, hleft, hright, rfl⟩ := forall₂_append_iff.mp hblocks
  obtain ⟨final, hfinal, rfl⟩ : ∃ final, last.toBlock scan.labels = .ok final ∧ right = [final] := by
    cases hright with
    | cons hfinal hnone =>
      cases hnone
      exact ⟨_, hfinal, rfl⟩
  rw [List.length_append, List.length_singleton]
  by_cases hindex : index < left.length
  · rw [List.getElem?_append_left hindex] at hblock
    obtain ⟨draft, hdraft, hmade⟩ := exists_of_getElem? hleft.flip hblock
    obtain ⟨-, hcontinues⟩ := hsettled draft (List.mem_of_getElem? hdraft)
    rw [fallthrough_of_toBlock hmade, hcontinues, stops_of_toBlock isa hmade]
    simp [hindex]
  · obtain ⟨hlt, -⟩ := List.getElem?_eq_some_iff.mp hblock
    rw [List.length_append, List.length_singleton] at hlt
    obtain rfl : index = left.length := by omega
    obtain rfl : final = block := by simpa using hblock
    rw [fallthrough_of_toBlock hfinal, hlast, if_neg Bool.false_ne_true, if_neg (by omega)]

theorem filled_of_cut (hcut : scan.Cut isa granularity decoded) (hsome : scan.recent ≠ []) :
    ∀ block ∈ blocks, block.isEmpty = false := by
  intro block hblock
  obtain ⟨draft, hdraft, hmade⟩ := exists_of_mem_right hblocks hblock
  obtain ⟨front, last, hdrafts, hsettled, -, hlast⟩ := hcut.exists_last
  have hitems : draft.items ≠ [] := by
    rw [hdrafts] at hdraft
    rcases List.mem_append.mp hdraft with hdraft | hdraft
    · exact (hsettled draft hdraft).1
    · rw [List.mem_singleton.mp hdraft]
      exact hlast hsome
  have hsize : block.size = draft.items.length := (fills_of_toBlock hmade).size
  rw [BasicBlock.isEmpty, hsize]
  simpa using hitems

/-- A label points to an instruction of its block, the first one if the scan cuts there. -/
theorem inside_of_cut (hlanding : ∀ unit ∈ Decoded.targets decoded, unit ∈ decoded.map (·.offset))
    (hmarked : ∀ d ∈ decoded, d.offset ∈ Decoded.targets decoded → d.isTarget = true)
    (htraced : Traced isa metadata decoded scan) (hcut : scan.Cut isa granularity decoded) :
    ∀ block ∈ blocks, ∀ jump ∈ block.jump, ∀ label, jump.label? = some label →
      (∃ aimed ∈ blocks, aimed.id = label.block ∧ label.index < aimed.size) ∧
        (granularity.splitAtTargets = true → label.index = 0) := by
  intro block hblock jump hjump label hlabel
  obtain ⟨draft, hdraft, hmade⟩ := exists_of_mem_right hblocks hblock
  obtain ⟨made, hsome, hnone, rfl⟩ := toBlock_eq_ok.mp hmade
  obtain rfl : made = some jump := hjump
  cases hbranch : draft.branch with
  | none => nomatch hnone hbranch
  | some branch =>
    obtain ⟨opcode, target⟩ := branch
    obtain ⟨found, hfound, hheld⟩ := hsome opcode target hbranch
    cases hheld
    obtain rfl : found = label := Option.some.inj hlabel
    obtain ⟨htarget, index, landing, label, hindex, rfl, hnoted, hat⟩ :=
      htraced.landing hlanding hdraft hbranch
    obtain rfl : found = label := Option.some.inj (hfound.symm.trans hnoted)
    refine ⟨?_, fun hsplit => ?_⟩
    · obtain ⟨before, piece, after, hpieces, hid, hlt, -⟩ := hat
      have hpiece : piece ∈ scan.pieces := by simp [hpieces]
      obtain ⟨draft, hdraft, rfl⟩ := exists_draft hpiece
      obtain ⟨aimed, haimed, hmade⟩ := exists_of_mem hblocks hdraft
      have hfills := fills_of_toBlock hmade
      exact ⟨aimed, haimed, hfills.id.trans hid, hfills.size ▸ hlt⟩
    · have hlands := List.mem_of_getElem? hindex
      exact hcut.begins hsplit landing hlands (hmarked landing hlands htarget) found hfound

end Blocks

/-- A graph that was read from code partitions its instructions. -/
theorem ofDecoded_partition {isa : InstructionSet} {metadata : Metadata}
    {granularity : Granularity} {bytecode : Bytecode} {decoded : List Decoded} {graph : Graph}
    (hdecoded : Decoded.ofBytecode isa bytecode = .ok decoded)
    (h : ofDecoded isa metadata granularity decoded = .ok graph) :
    ∃ blocks, Partition isa metadata granularity decoded graph blocks := by
  obtain ⟨starts, -, hlisting⟩ := Decoded.listing_of_ofBytecode hdecoded
  have hnodup := hlisting.tiled.nodup
  obtain ⟨blocks, hrebuilt⟩ := rebuilt_of_ofDecoded hnodup hlisting.landing h
  obtain ⟨scan, made, hscan, hblocks, rfl⟩ := ofDecoded_eq_ok.mp h
  have htraced := Traced.foldlM hnodup hscan
  have hcut := Scan.Cut.foldlM hnodup hscan
  have hordered := ordered_drafts hcut.sound
  obtain rfl : blocks = made :=
    Except.ok.inj (hrebuilt.linear.symm.trans (linearize_of_ordered hordered hblocks))
  refine ⟨blocks, hrebuilt, rfl, rfl, ids_of_ordered hordered hblocks, ?_, fun hsome => ?_,
    fun index block => falls_of_cut hblocks hcut, ?_⟩
  · rintro rfl
    exact hordered.ne_nil (List.forall₂_nil_right_iff.mp hblocks)
  · refine filled_of_cut hblocks hcut fun hnone => hsome ?_
    have hitems := htraced.items
    rw [Scan.pieces, hnone] at hitems
    exact List.forall₂_nil_left_iff.mp hitems
  · refine inside_of_cut hblocks hlisting.landing (fun d hd htarget => ?_) htraced hcut
    rw [hlisting.isTarget d hd, decide_eq_true_eq]
    exact htarget

/-- A conditional branch over a return.  It lands where another line starts. -/
def overReturn : Bytecode :=
  { code := [114, 2, 83, 0, 9, 0], firstLine := 1, lineTable := [4, 1] }

def overReturnListing : List Decoded :=
  [{ offset := 0, size := 1, opcode := 114, argument := some 2, target := some 2, line := some 1,
      isTarget := false },
   { offset := 1, size := 1, opcode := 83, argument := none, target := none, line := none,
      isTarget := false },
   { offset := 2, size := 1, opcode := 9, argument := none, target := none, line := some 2,
      isTarget := true }]

theorem overReturn_reads : Decoded.ofBytecode .small overReturn = .ok overReturnListing :=
  Decoded.ofBytecode_eq_ok.mpr
    ⟨overReturnListing.map fun d => { d with line := none, isTarget := false },
      [{ offset := 0, line := 1 }, { offset := 4, line := 2 }],
      .cons rfl (.cons rfl (.cons rfl (.nil 3))), by decide, by decide +kernel,
      by unfold Decoded.Landing; decide, by decide⟩

theorem overReturn_graph :
    ∃ graph, ofDecoded .small default .fine overReturnListing = .ok graph := by
  refine ofDecoded_ok .fine (by decide) (by decide) fun d hd => ?_
  simp only [overReturnListing, List.mem_cons, List.not_mem_nil, or_false] at hd
  rcases hd with rfl | rfl | rfl
  · exact ⟨.branch 114 2, .absoluteJump, rfl, rfl, rfl, rfl⟩
  · exact ⟨.plain (.simple 83), .none, rfl, rfl, rfl, rfl⟩
  · exact ⟨.plain (.simple 9), .none, rfl, rfl, rfl, rfl⟩

/-- The blocks of `overReturn` partition its instructions. -/
theorem overReturn_partition :
    Decoded.ofBytecode .small overReturn = .ok overReturnListing ∧
      ∃ graph blocks, ofDecoded .small default .fine overReturnListing = .ok graph ∧
        Partition .small default .fine overReturnListing graph blocks := by
  obtain ⟨graph, hgraph⟩ := overReturn_graph
  obtain ⟨blocks, hpartition⟩ := ofDecoded_partition overReturn_reads hgraph
  exact ⟨overReturn_reads, graph, blocks, hgraph, hpartition⟩

end Graph
end StackCode
