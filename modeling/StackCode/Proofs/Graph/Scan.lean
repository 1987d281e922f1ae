import StackCode.Graph.OfBytecode
import StackCode.Proofs.Bytecode.Lines
import StackCode.Proofs.Outcome

/-!
Scans.  Wherever a scan cuts, it neither loses nor reorders an instruction: the blocks of a scan,
one behind the other, hold what was read so far, each block on its source line, and the label of
an instruction says where it stands.
-/

namespace StackCode

open Outcome

namespace Decoded

/-- The line that is active at each instruction, behind line `current`. -/
def activeFrom (current : Option UInt32) : List Decoded → List (Option UInt32)
  | [] => []
  | d :: rest => d.line.or current :: activeFrom (d.line.or current) rest

theorem activeFrom_append (d : Decoded) (front : List Decoded) :
    ∀ current, activeFrom current (front ++ [d]) = activeFrom current front ++
      [d.line.or (front.foldl (fun line d => d.line.or line) current)] := by
  induction front with
  | nil => intro current; rfl
  | cons first rest ih =>
    intro current
    rw [List.cons_append, activeFrom, activeFrom, ih, List.cons_append, List.foldl_cons]

/-- The lines of a listing are those of its line table. -/
theorem Listing.activeFrom_eq {isa : InstructionSet} {starts : List LineStart}
    {decoded : List Decoded} (h : Listing isa starts decoded) :
    activeFrom none decoded = decoded.map fun d => LineTable.lineAt starts (2 * d.offset) := by
  have hprefix : ∀ front rest, decoded = front ++ rest →
      activeFrom none front = front.map fun d => LineTable.lineAt starts (2 * d.offset) := by
    intro front
    induction front using List.reverseRecOn with
    | nil => intro rest _; rfl
    | append_singleton front d ih =>
      intro rest hsplit
      rw [List.append_assoc, List.singleton_append] at hsplit
      have hline := h.lastLine_eq hsplit
      rw [lastLine_append] at hline
      rw [activeFrom_append, ih _ hsplit, List.map_append]
      exact congrArg _ (congrArg (fun line => [line]) hline)
  exact hprefix decoded [] (List.append_nil _).symm

end Decoded

namespace Graph

/-- What a block takes from one decoded instruction. -/
inductive Item where
  | plain (instruction : Instruction)
  | branch (opcode : UInt8) (target : Nat)

/-- The item that a scan makes of an instruction. -/
def Item.Of (isa : InstructionSet) (metadata : Metadata) : Item → Decoded → Prop
  | plain instruction, d => ∃ kind, isa.operandKind d.opcode = .ok kind ∧ kind.isJump = false ∧
      instruction.opcode = d.opcode ∧
      Operand.ofArgument kind d.argument metadata = .ok instruction.operand
  | branch opcode target, d => ∃ kind, isa.operandKind d.opcode = .ok kind ∧
      kind.isJump = true ∧ opcode = d.opcode ∧ d.target = some target

/-- The item of an instruction, or why there is none. -/
def Item.read (isa : InstructionSet) (metadata : Metadata) (d : Decoded) : Except Error Item := do
  let kind ← isa.operandKind d.opcode
  if kind.isJump then
    match d.target with
    | none => throw (.unresolvedBranch d.offset)
    | some target => return .branch d.opcode target
  else
    let operand ← Operand.ofArgument kind d.argument metadata
    return .plain { opcode := d.opcode, operand }

theorem Item.read_eq_ok {isa : InstructionSet} {metadata : Metadata} {d : Decoded} {item : Item} :
    Item.read isa metadata d = .ok item ↔ item.Of isa metadata d := by
  simp only [Item.read, bind_eq_ok]
  constructor
  · rintro ⟨kind, hkind, h⟩
    cases hjump : kind.isJump with
    | true =>
      rw [hjump, if_pos rfl] at h
      cases htarget : d.target with
      | none => rw [htarget] at h; cases h
      | some target =>
        rw [htarget] at h
        cases h
        exact ⟨kind, hkind, hjump, rfl, htarget⟩
    | false =>
      rw [hjump, if_neg Bool.false_ne_true] at h
      obtain ⟨operand, hoperand, h⟩ := bind_eq_ok.mp h
      cases h
      exact ⟨kind, hkind, hjump, rfl, hoperand⟩
  · intro hof
    cases item with
    | plain instruction =>
      obtain ⟨kind, hkind, hjump, hopcode, hoperand⟩ := hof
      refine ⟨kind, hkind, ?_⟩
      rw [hjump, if_neg Bool.false_ne_true, ← hopcode]
      exact bind_eq_ok.mpr ⟨_, hoperand, rfl⟩
    | branch opcode target =>
      obtain ⟨kind, hkind, hjump, rfl, htarget⟩ := hof
      refine ⟨kind, hkind, ?_⟩
      rw [hjump, if_pos rfl, htarget]
      rfl

/-- A block of a scan, without its fallthrough. -/
structure Piece where
  id : Nat
  line : Option UInt32
  items : List Item

namespace Draft

def items (draft : Draft) : List Item :=
  draft.body.toList.map .plain ++ draft.branch.toList.map fun (opcode, target) =>
    .branch opcode target

def piece (draft : Draft) : Piece := { id := draft.id, line := draft.line, items := draft.items }

end Draft

/-- The pieces once one more item is read on `line`: the last one takes it, or a new one. -/
def Grown (pieces : List Piece) (item : Item) (line : Option UInt32) (grown : List Piece) : Prop :=
  (∃ front piece, pieces = front ++ [piece] ∧ piece.line = line ∧
      grown = front ++ [{ piece with items := piece.items ++ [item] }]) ∨
    grown = pieces ++ [{ id := pieces.length + 1, line, items := [item] }]

namespace Scan

/-- The blocks of a scan, last first. -/
def recent (scan : Scan) : List Draft := scan.current.toList ++ scan.closed

/-- The blocks of a scan in the order of the code. -/
def pieces (scan : Scan) : List Piece := scan.recent.reverse.map Draft.piece

/-- Blocks, last first, that are numbered from 1. -/
def Numbered : List Draft → Prop
  | [] => True
  | draft :: rest => draft.id = rest.length + 1 ∧ Numbered rest

/-- Scans that `step` leads to. -/
structure Sound (scan : Scan) : Prop where
  numbered : Numbered scan.recent
  /-- No block waits while another one is open. -/
  idle : scan.current.isSome → scan.waiting = none
  waits : ∀ id, scan.waiting = some id → scan.closed.head?.map (·.id) = some id
  last : ∀ draft ∈ scan.recent.head?, draft.continues = false
  branch : ∀ draft, scan.current = some draft → draft.branch = none
  line : ∀ draft, scan.current = some draft → draft.line = scan.line

theorem sound_start : start.Sound where
  numbered := trivial
  idle := by simp [start]
  waits := by simp [start]
  last := by simp [start, recent]
  branch := by simp [start]
  line := by simp [start]

/-! ### Cuts -/

/-- A cut closes the current block, if there is one, and keeps all blocks. -/
theorem Sound.close {scan : Scan} (h : scan.Sound) (line : Option UInt32) :
    ∃ next, Scan.close { scan with line } = .ok next ∧ next.Sound ∧ next.current = none ∧
      next.recent = scan.recent ∧ next.line = line ∧ next.labels = scan.labels := by
  obtain ⟨closed, current, waiting, oldLine, labels⟩ := scan
  obtain ⟨hnumbered, hidle, hwaits, hlast, -, -⟩ := h
  cases current with
  | none =>
    exact ⟨_, rfl, ⟨hnumbered, by simp, hwaits, hlast, by simp, by simp⟩, rfl, rfl, rfl, rfl⟩
  | some draft =>
    have hwaiting : waiting = none := hidle rfl
    subst hwaiting
    refine ⟨_, rfl, ⟨hnumbered, by simp, ?_, hlast, by simp, by simp⟩, rfl, rfl, rfl, rfl⟩
    intro id hid
    simpa using hid

theorem Sound.enterLine {scan : Scan} (h : scan.Sound) (line : Option UInt32) :
    ∃ next, scan.enterLine line = .ok next ∧ next.Sound ∧ next.recent = scan.recent ∧
      next.line = line.or scan.line ∧ next.labels = scan.labels := by
  cases line with
  | none => exact ⟨scan, rfl, h, rfl, rfl, rfl⟩
  | some line =>
    rw [Scan.enterLine]
    by_cases hsame : scan.line = some line
    · rw [if_pos hsame]
      exact ⟨scan, rfl, h, rfl, hsame, rfl⟩
    · rw [if_neg hsame]
      obtain ⟨next, hnext, hsound, -, hkept⟩ := h.close (some line)
      exact ⟨next, hnext, hsound, hkept⟩

theorem Sound.enterTarget {scan : Scan} (h : scan.Sound) (cut : Bool) :
    ∃ next, scan.enterTarget cut = .ok next ∧ next.Sound ∧ next.recent = scan.recent ∧
      next.line = scan.line ∧ next.labels = scan.labels := by
  rw [Scan.enterTarget]
  split
  · obtain ⟨next, hnext, hsound, -, hkept⟩ := h.close scan.line
    exact ⟨next, hnext, hsound, hkept⟩
  · exact ⟨scan, rfl, h, rfl, rfl, rfl⟩

theorem map_piece_continueTo (waiting : Option Nat) (drafts : List Draft) :
    (continueTo waiting drafts).map Draft.piece = drafts.map Draft.piece := by
  cases drafts with
  | nil => rfl
  | cons draft rest =>
    rw [continueTo]
    split <;> rfl

theorem numbered_of_pieces {drafts : List Draft} :
    ∀ {drafts' : List Draft}, drafts.map Draft.piece = drafts'.map Draft.piece →
      Numbered drafts → Numbered drafts' := by
  induction drafts with
  | nil =>
    intro drafts' h _
    rw [List.map_nil] at h
    rw [List.map_eq_nil_iff.mp h.symm]
    trivial
  | cons draft rest ih =>
    intro drafts' h hnumbered
    cases drafts' with
    | nil => cases h
    | cons draft' rest' =>
      rw [List.map_cons, List.map_cons, List.cons.injEq] at h
      obtain ⟨hid, hrest⟩ := hnumbered
      have hlength : rest.length = rest'.length := by simpa using congrArg List.length h.2
      exact ⟨by rw [← hlength, ← hid]; exact (congrArg Piece.id h.1).symm, ih h.2 hrest⟩

/-- The block that takes the next instruction is the last one, or a new one behind it. -/
theorem Sound.openBlock {scan : Scan} (h : scan.Sound) {draft : Draft} {rest : Scan}
    (hopen : scan.openBlock = (draft, rest)) :
    Numbered (draft :: rest.closed) ∧ draft.branch = none ∧ draft.continues = false ∧
      draft.line = scan.line ∧ rest.current = none ∧ rest.waiting = none ∧
      rest.line = scan.line ∧ rest.labels = scan.labels ∧
      (scan.recent = draft :: rest.closed ∨
        draft.body = #[] ∧ draft.id = scan.recent.length + 1 ∧
          rest.closed.map Draft.piece = scan.recent.map Draft.piece) := by
  obtain ⟨closed, current, waiting, line, labels⟩ := scan
  obtain ⟨hnumbered, hidle, -, hlast, hbranch, hline⟩ := h
  cases current with
  | some open' =>
    cases hopen
    exact ⟨hnumbered, hbranch _ rfl, hlast _ rfl, hline _ rfl, rfl, hidle rfl, rfl, rfl, .inl rfl⟩
  | none =>
    cases hopen
    have hkept := map_piece_continueTo waiting closed
    have hlength : (continueTo waiting closed).length = closed.length := by
      simpa using congrArg List.length hkept
    have hid : (closed.head?.map (·.id)).getD 0 + 1 = closed.length + 1 := by
      cases closed with
      | nil => rfl
      | cons first others => rw [List.head?_cons]; exact congrArg (· + 1) hnumbered.1
    refine ⟨⟨?_, numbered_of_pieces hkept.symm hnumbered⟩, rfl, rfl, rfl, rfl, rfl, rfl, rfl,
      .inr ⟨rfl, hid, hkept⟩⟩
    rw [hlength]
    exact hid

/-! ### Steps -/

/-- The scan once `draft` has taken an item. -/
def put (isa : InstructionSet) (draft : Draft) (rest : Scan) (opcode : UInt8) : Item → Scan
  | .plain instruction =>
    let draft := { draft with body := draft.body.push instruction }
    if isa.isTerminal opcode then { rest with closed := draft :: rest.closed, waiting := none }
    else { rest with current := some draft }
  | .branch opcode target =>
    { rest with
      closed := { draft with branch := some (opcode, target) } :: rest.closed
      waiting := if isa.isTerminal opcode then none else some draft.id }

/-- Notes that the instruction at `offset` is the next one of `draft`. -/
def note (draft : Draft) (offset : Nat) (rest : Scan) : Scan :=
  { rest with
    labels := rest.labels.insert offset { block := draft.id, index := draft.body.size } }

/-- `entered` is where a scan stands once it has cut in front of an instruction. -/
def Enters (granularity : Granularity) (scan : Scan) (d : Decoded) (entered : Scan) : Prop :=
  ∃ first, scan.enterLine d.line = .ok first ∧
    first.enterTarget (d.isTarget && granularity.splitAtTargets) = .ok entered

/-- A step reads one item, once it has cut. -/
theorem Sound.step_eq {isa : InstructionSet} {metadata : Metadata} {granularity : Granularity}
    {scan : Scan} (h : scan.Sound) (d : Decoded) :
    ∃ (entered : Scan) (draft : Draft) (rest : Scan), scan.Enters granularity d entered ∧
      entered.Sound ∧ entered.recent = scan.recent ∧ entered.line = d.line.or scan.line ∧
      entered.labels = scan.labels ∧ entered.openBlock = (draft, rest) ∧
      scan.step isa metadata granularity d =
        (Item.read isa metadata d).map (put isa draft (note draft d.offset rest) d.opcode) := by
  obtain ⟨first, hfirst, hsound, hrecent, hline, hlabels⟩ := h.enterLine d.line
  obtain ⟨entered, hentered, hsound', hrecent', hline', hlabels'⟩ :=
    hsound.enterTarget (d.isTarget && granularity.splitAtTargets)
  refine ⟨entered, entered.openBlock.1, entered.openBlock.2, ⟨first, hfirst, hentered⟩, hsound',
    hrecent'.trans hrecent, hline'.trans hline, hlabels'.trans hlabels, rfl, ?_⟩
  rw [step, hfirst]
  show (first.enterTarget _ >>= _) = _
  rw [hentered, Item.read]
  cases isa.operandKind d.opcode with
  | error error => rfl
  | ok kind =>
    show (if kind.isJump = true then _ else _) = Except.map _ (if kind.isJump = true then _ else _)
    by_cases hjump : kind.isJump = true
    · rw [if_pos hjump, if_pos hjump]
      cases d.target <;> rfl
    · rw [if_neg hjump, if_neg hjump]
      cases Operand.ofArgument kind d.argument metadata with
      | error error => rfl
      | ok operand =>
        show (if isa.isTerminal d.opcode then _ else _) = Except.ok (put _ _ _ _ (.plain _))
        rw [put]
        split <;> rfl

/-- A block that is not closed by a branch takes one more item at its end. -/
theorem put_sound (isa : InstructionSet) {draft : Draft} {rest : Scan} (opcode : UInt8)
    (item : Item) (hnumbered : Numbered (draft :: rest.closed)) (hbranch : draft.branch = none)
    (hcontinues : draft.continues = false) (hline : draft.line = rest.line)
    (hcurrent : rest.current = none) (hwaiting : rest.waiting = none) :
    (put isa draft rest opcode item).Sound ∧ (put isa draft rest opcode item).line = rest.line ∧
      (put isa draft rest opcode item).labels = rest.labels ∧
      (put isa draft rest opcode item).recent.map Draft.piece =
        { draft.piece with items := draft.items ++ [item] } :: rest.closed.map Draft.piece := by
  obtain ⟨id, line, body, branch, continues⟩ := draft
  obtain ⟨closed, current, waiting, scanLine, labels⟩ := rest
  simp only at hbranch hcontinues hcurrent hwaiting hline
  subst hbranch hcontinues hcurrent hwaiting hline
  cases item with
  | plain instruction =>
    rw [put]
    by_cases hterminal : isa.isTerminal opcode = true
    · rw [if_pos hterminal]
      refine ⟨⟨hnumbered, by simp, by simp, by simp [recent], by simp, by simp⟩, rfl, rfl, ?_⟩
      simp [recent, Draft.piece, Draft.items]
    · rw [if_neg hterminal]
      refine ⟨⟨hnumbered, by simp, by simp, by simp [recent], by simp, by simp⟩, rfl, rfl, ?_⟩
      simp [recent, Draft.piece, Draft.items]
  | branch held target =>
    rw [put]
    refine ⟨⟨hnumbered, by simp, ?_, by simp [recent], by simp, by simp⟩, rfl, rfl, ?_⟩
    · intro waiting hwaits
      by_cases hterminal : isa.isTerminal held = true
      · simp [hterminal] at hwaits
      · simpa [hterminal] using hwaits
    · simp [recent, Draft.piece, Draft.items]

/-- The label stands for the last item of the last piece. -/
def EndsAt (pieces : List Piece) (label : Label) : Prop :=
  ∃ front piece, pieces = front ++ [piece] ∧ piece.id = label.block ∧
    piece.items.length = label.index + 1

/-- A step keeps what was read and reads one item more. -/
theorem Sound.step {isa : InstructionSet} {metadata : Metadata} {granularity : Granularity}
    {scan next : Scan} {d : Decoded} (h : scan.Sound)
    (hstep : scan.step isa metadata granularity d = .ok next) :
    next.Sound ∧ next.line = d.line.or scan.line ∧
      (∃ item : Item, item.Of isa metadata d ∧ Grown scan.pieces item next.line next.pieces) ∧
      ∃ label, next.labels = scan.labels.insert d.offset label ∧ EndsAt next.pieces label := by
  obtain ⟨entered, draft, rest, -, hentered, hrecent, hline, hlabels, hopen, hread⟩ := h.step_eq d
  obtain ⟨item, hitem, rfl⟩ := map_eq_ok.mp (hread.symm.trans hstep)
  have hof := Item.read_eq_ok.mp hitem
  obtain ⟨hnumbered, hbranch, hcontinues, hdraft, hcurrent, hwaiting, hrest, hkept, hplace⟩ :=
    hentered.openBlock hopen
  obtain ⟨hsound, hline', hlabels', hpieces⟩ := put_sound isa d.opcode item
    (show Numbered (draft :: (note draft d.offset rest).closed) from hnumbered) hbranch hcontinues
    (hdraft.trans hrest.symm) hcurrent hwaiting
  have hat : (put isa draft (note draft d.offset rest) d.opcode item).line = d.line.or scan.line :=
    hline'.trans (hrest.trans hline)
  have hgrown : (put isa draft (note draft d.offset rest) d.opcode item).pieces =
      (rest.closed.map Draft.piece).reverse ++
        [{ draft.piece with items := draft.items ++ [item] }] := by
    rw [pieces, List.map_reverse, hpieces, List.reverse_cons]
    rfl
  rw [hrecent] at hplace
  refine ⟨hsound, hat, ⟨item, hof, ?_⟩, { block := draft.id, index := draft.body.size }, ?_, ?_⟩
  · rw [hgrown, hat, ← hline, ← hdraft]
    rcases hplace with hlast | ⟨hbody, hid, hfront⟩
    · refine .inl ⟨(rest.closed.map Draft.piece).reverse, draft.piece, ?_, rfl, rfl⟩
      rw [pieces, hlast, List.map_reverse, List.map_cons, List.reverse_cons]
    · refine .inr ?_
      have hlength : scan.pieces.length = scan.recent.length := by simp [pieces]
      rw [hfront, ← List.map_reverse, ← pieces, hlength, ← hid]
      simp [Draft.piece, Draft.items, hbody, hbranch]
  · rw [hlabels', note, hkept, hlabels]
  · exact ⟨_, _, hgrown, rfl, by simp [Draft.items, hbranch]⟩

/-- A step fails exactly if there is no item to read, wherever the scan cuts. -/
theorem Sound.step_eq_error {isa : InstructionSet} {metadata : Metadata}
    {granularity : Granularity} {scan : Scan} {d : Decoded} {error : Error} (h : scan.Sound) :
    scan.step isa metadata granularity d = .error error ↔
      Item.read isa metadata d = .error error := by
  obtain ⟨entered, draft, rest, -, -, -, -, -, -, hread⟩ := h.step_eq d
  rw [show scan.step isa metadata granularity d = _ from hread]
  cases Item.read isa metadata d with
  | error found => simp [Except.map]
  | ok item => simp [Except.map]

end Scan

/-! ### Runs -/

def Piece.lines (piece : Piece) : List (Option UInt32) :=
  List.replicate piece.items.length piece.line

/-- The item at `index`, counted through all pieces, is the one that the label names. -/
def At (pieces : List Piece) (label : Label) (index : Nat) : Prop :=
  ∃ before piece after, pieces = before ++ piece :: after ∧ piece.id = label.block ∧
    label.index < piece.items.length ∧
    index = (before.flatMap Piece.items).length + label.index

theorem Grown.items {pieces grown : List Piece} {item : Item} {line : Option UInt32}
    (h : Grown pieces item line grown) :
    grown.flatMap Piece.items = pieces.flatMap Piece.items ++ [item] := by
  rcases h with ⟨front, piece, rfl, -, rfl⟩ | rfl
  · simp
  · simp

theorem Grown.lines {pieces grown : List Piece} {item : Item} {line : Option UInt32}
    (h : Grown pieces item line grown) :
    grown.flatMap Piece.lines = pieces.flatMap Piece.lines ++ [line] := by
  rcases h with ⟨front, piece, rfl, rfl, rfl⟩ | rfl
  · simp [Piece.lines, List.replicate_succ']
  · simp [Piece.lines]

/-- Items keep their labels while more are read. -/
theorem Grown.at {pieces grown : List Piece} {item : Item} {line : Option UInt32}
    (h : Grown pieces item line grown) {label : Label} {index : Nat} (hat : At pieces label index) :
    At grown label index := by
  obtain ⟨before, piece, after, rfl, hid, hlt, hindex⟩ := hat
  rcases h with ⟨front, last, hsplit, -, rfl⟩ | rfl
  · cases after using List.reverseRecOn with
    | nil =>
      obtain ⟨rfl, hsame⟩ := List.append_inj' hsplit rfl
      rw [List.cons.injEq] at hsame
      rw [hsame.1] at hid hlt
      exact ⟨before, _, [], rfl, hid, by rw [List.length_append]; omega, hindex⟩
    | append_singleton after other =>
      have hfront : before ++ piece :: after = front := by
        rw [← List.cons_append, ← List.append_assoc] at hsplit
        exact (List.append_inj' hsplit rfl).1
      rw [← hfront, List.append_assoc, List.cons_append]
      exact ⟨before, piece, _, rfl, hid, hlt, hindex⟩
  · rw [List.append_assoc, List.cons_append]
    exact ⟨before, piece, _, rfl, hid, hlt, hindex⟩

theorem at_of_endsAt {pieces : List Piece} {label : Label} (h : Scan.EndsAt pieces label) :
    At pieces label ((pieces.flatMap Piece.items).length - 1) := by
  obtain ⟨front, piece, rfl, hid, hlength⟩ := h
  refine ⟨front, piece, [], rfl, hid, by omega, ?_⟩
  rw [List.flatMap_append, List.length_append, List.flatMap_singleton]
  omega

/-- What a scan has made of the instructions it has read. -/
structure Traced (isa : InstructionSet) (metadata : Metadata) (front : List Decoded)
    (scan : Scan) : Prop where
  sound : scan.Sound
  line : scan.line = Decoded.lastLine front
  items : List.Forall₂ (Item.Of isa metadata) (scan.pieces.flatMap Piece.items) front
  lines : scan.pieces.flatMap Piece.lines = Decoded.activeFrom none front
  labels : ∀ index d, front[index]? = some d →
    ∃ label, scan.labels[d.offset]? = some label ∧ At scan.pieces label index

theorem traced_start (isa : InstructionSet) (metadata : Metadata) :
    Traced isa metadata [] Scan.start :=
  ⟨Scan.sound_start, rfl, .nil, rfl, by simp⟩

theorem Traced.step {isa : InstructionSet} {metadata : Metadata} {granularity : Granularity}
    {front : List Decoded} {d : Decoded} {scan next : Scan}
    (hfresh : d.offset ∉ front.map (·.offset)) (h : Traced isa metadata front scan)
    (hstep : scan.step isa metadata granularity d = .ok next) :
    Traced isa metadata (front ++ [d]) next := by
  obtain ⟨hsound, hline, ⟨item, hof, hgrown⟩, label, hlabels, hend⟩ := h.sound.step hstep
  have hnext : next.line = Decoded.lastLine (front ++ [d]) := by
    rw [hline, h.line, Decoded.lastLine_append]
  have hcount : (next.pieces.flatMap Piece.items).length = front.length + 1 := by
    rw [hgrown.items, List.length_append, h.items.length_eq]
    rfl
  refine ⟨hsound, hnext, ?_, ?_, fun index other hother => ?_⟩
  · rw [hgrown.items]
    exact forall₂_append_iff.mpr ⟨front, [d], h.items, .cons hof .nil, rfl⟩
  · rw [hgrown.lines, h.lines, Decoded.activeFrom_append, hnext, Decoded.lastLine_append]
    rfl
  · rw [hlabels, Std.HashMap.getElem?_insert]
    by_cases hlt : index < front.length
    · rw [List.getElem?_append_left hlt] at hother
      have hne : d.offset ≠ other.offset := fun hsame =>
        hfresh (hsame ▸ List.mem_map_of_mem (List.mem_of_getElem? hother))
      obtain ⟨label, hlabel, hat⟩ := h.labels index other hother
      rw [if_neg (by simpa using hne)]
      exact ⟨label, hlabel, hgrown.at hat⟩
    · obtain ⟨hbound, hlast⟩ := List.getElem?_eq_some_iff.mp hother
      rw [List.length_append, List.length_singleton] at hbound
      have hindex : index = front.length := by omega
      subst hindex
      have hd : d = other := by simpa using hlast
      have hat := at_of_endsAt hend
      rw [hcount, Nat.add_sub_cancel] at hat
      rw [hd, if_pos (by simp)]
      exact ⟨label, rfl, hat⟩

/-- What each step of a scan keeps, over instructions that start at different places. -/
theorem foldlM_fresh {isa : InstructionSet} {metadata : Metadata} {granularity : Granularity}
    {Holds : List Decoded → Scan → Prop} {decoded : List Decoded} {scan : Scan}
    (hnodup : (decoded.map (·.offset)).Nodup) (hstart : Holds [] Scan.start)
    (hkeeps : ∀ front d scan next, d.offset ∉ front.map (·.offset) → Holds front scan →
      scan.step isa metadata granularity d = .ok next → Holds (front ++ [d]) next)
    (h : decoded.foldlM (Scan.step isa metadata granularity) Scan.start = .ok scan) :
    Holds decoded scan := by
  refine foldlM_keeps (Scan.step isa metadata granularity)
    (fun front scan => (front.map (·.offset)).Nodup → Holds front scan)
    (fun front d scan next hholds hstep hnodup => ?_)
    decoded [] Scan.start scan (fun _ => hstart) h hnodup
  rw [List.map_append, List.nodup_append] at hnodup
  refine hkeeps front d scan next (fun hmem => ?_) (hholds hnodup.1) hstep
  exact hnodup.2.2 d.offset hmem d.offset (by simp) rfl

theorem Traced.foldlM {isa : InstructionSet} {metadata : Metadata} {granularity : Granularity}
    {decoded : List Decoded} {scan : Scan} (hnodup : (decoded.map (·.offset)).Nodup)
    (h : decoded.foldlM (Scan.step isa metadata granularity) Scan.start = .ok scan) :
    Traced isa metadata decoded scan :=
  foldlM_fresh hnodup (traced_start isa metadata)
    (fun _ _ _ _ hfresh htraced hstep => htraced.step hfresh hstep) h

end Graph
end StackCode
