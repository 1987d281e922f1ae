import StackCode.Proofs.Assembly.Slots
import StackCode.Proofs.Graph.Scan

/-!
Rebuilt graphs.  The blocks of a graph that was read from code are laid out in the order of the
code, so that its instructions stand where they came from, each on its line, and every label
names the instruction that the branch landed on.
-/

namespace StackCode
namespace Graph

open Outcome

/-! ### Blocks of drafts -/

theorem toBlock_eq_ok {labels : Std.HashMap Nat Label} {draft : Draft} {block : BasicBlock} :
    draft.toBlock labels = .ok block ↔
      ∃ jump : Option Instruction,
        (∀ opcode target, draft.branch = some (opcode, target) →
          ∃ label, labels[target]? = some label ∧
            jump = some { opcode, operand := .label label }) ∧
        (draft.branch = none → jump = none) ∧
        block = {
          id := draft.id
          instructions := draft.body.toList
          jump
          fallthrough := if draft.continues then some (.start (draft.id + 1)) else none
          line := draft.line } := by
  rw [Draft.toBlock]
  cases hbranch : draft.branch with
  | none =>
    simp only [Except.ok.injEq]
    constructor
    · intro h
      exact ⟨none, by simp, fun _ => rfl, h.symm⟩
    · rintro ⟨jump, -, hjump, rfl⟩
      rw [hjump trivial]
  | some branch =>
    obtain ⟨opcode, target⟩ := branch
    simp only
    cases hlabel : labels[target]? with
    | none =>
      constructor
      · intro h
        cases h
      · rintro ⟨jump, hjump, -, -⟩
        obtain ⟨label, hsome, -⟩ := hjump opcode target rfl
        rw [hlabel] at hsome
        cases hsome
    | some label =>
      simp only [Except.ok.injEq]
      constructor
      · intro h
        refine ⟨_, ?_, by simp, h.symm⟩
        rintro opcode' target' hsame
        cases hsame
        exact ⟨label, hlabel, rfl⟩
      · rintro ⟨jump, hjump, -, rfl⟩
        obtain ⟨label', hsome, rfl⟩ := hjump opcode target rfl
        rw [hlabel, Option.some.injEq] at hsome
        rw [hsome]

/-- The instruction that an item becomes. -/
def Item.Becomes (labels : Std.HashMap Nat Label) : Item → Instruction → Prop
  | plain held, instruction => instruction = held
  | branch opcode target, instruction => ∃ label, labels[target]? = some label ∧
      instruction = { opcode, operand := .label label }

/-- A block keeps the items of its draft. -/
theorem items_of_toBlock {labels : Std.HashMap Nat Label} {draft : Draft} {block : BasicBlock}
    (h : draft.toBlock labels = .ok block) :
    block.id = draft.id ∧ block.line = draft.line ∧
      List.Forall₂ (Item.Becomes labels) draft.items block.all := by
  obtain ⟨jump, hsome, hnone, rfl⟩ := toBlock_eq_ok.mp h
  refine ⟨rfl, rfl, ?_⟩
  rw [BasicBlock.all, Draft.items]
  refine List.rel_append ?_ ?_
  · rw [List.forall₂_map_left_iff]
    exact List.forall₂_same.mpr fun instruction _ => rfl
  · cases hbranch : draft.branch with
    | none =>
      rw [hnone hbranch]
      exact .nil
    | some branch =>
      obtain ⟨opcode, target⟩ := branch
      obtain ⟨label, hlabel, rfl⟩ := hsome opcode target hbranch
      exact .cons ⟨label, hlabel, rfl⟩ .nil

theorem ofDecoded_eq_ok {isa : InstructionSet} {metadata : Metadata} {granularity : Granularity}
    {decoded : List Decoded} {graph : Graph} :
    ofDecoded isa metadata granularity decoded = .ok graph ↔
      ∃ scan blocks, decoded.foldlM (Scan.step isa metadata granularity) Scan.start = .ok scan ∧
        List.Forall₂ (fun draft block => draft.toBlock scan.labels = .ok block) scan.drafts
          blocks ∧
        graph = { metadata, isa, entry := 1, blocks := blocks.map fun block =>
          (block.id, .basic block) } := by
  simp only [ofDecoded, bind_eq_ok, pure_eq_ok, mapM_eq_ok]
  constructor
  · rintro ⟨scan, hscan, blocks, hblocks, h⟩
    exact ⟨scan, blocks, hscan, hblocks, h.symm⟩
  · rintro ⟨scan, blocks, hscan, hblocks, h⟩
    exact ⟨scan, hscan, blocks, hblocks, h.symm⟩

theorem leavesOf_basic (blocks : List BasicBlock) :
    Block.leavesOf (blocks.map fun block => (block.id, .basic block)) = blocks := by
  induction blocks with
  | nil => rfl
  | cons block rest ih => rw [List.map_cons, Block.leavesOf, ih]; rfl

/-- The drafts of a scan are its blocks, or one empty block if it has none. -/
theorem drafts_eq (scan : Scan) :
    scan.drafts = scan.recent.reverse ∨
      scan.recent = [] ∧ ∃ draft, scan.drafts = [draft] ∧ draft.id = 1 ∧ draft.body = #[] ∧
        draft.branch = none ∧ draft.continues = false ∧ draft.line = scan.line := by
  obtain ⟨closed, current, waiting, line, labels⟩ := scan
  cases current with
  | some draft => exact .inl rfl
  | none =>
    cases closed with
    | cons draft rest => exact .inl rfl
    | nil => exact .inr ⟨rfl, _, rfl, rfl, rfl, rfl, rfl, rfl⟩

/-! ### Chains of drafts -/

/-- Drafts that are numbered from 1, of which the last does not continue. -/
structure Ordered (drafts : List Draft) : Prop where
  ids : drafts.map (·.id) = List.range' 1 drafts.length
  last : ∀ draft ∈ drafts.getLast?, draft.continues = false
  ne_nil : drafts ≠ []

theorem ids_of_numbered {recent : List Draft} (h : Scan.Numbered recent) :
    recent.reverse.map (·.id) = List.range' 1 recent.length := by
  induction recent with
  | nil => rfl
  | cons draft rest ih =>
    obtain ⟨hid, hrest⟩ := h
    rw [List.reverse_cons, List.map_append, ih hrest, List.length_cons, List.range'_1_concat,
      List.map_singleton, hid, Nat.add_comm]

theorem ordered_drafts {scan : Scan} (h : scan.Sound) : Ordered scan.drafts := by
  rcases drafts_eq scan with hdrafts | ⟨-, draft, hdrafts, hid, -, -, hcontinues, -⟩
  · have hnonempty : scan.drafts ≠ [] := by
      obtain ⟨closed, current, waiting, line, labels⟩ := scan
      cases current <;> cases closed <;> simp [Scan.drafts]
    rw [hdrafts] at hnonempty ⊢
    refine ⟨?_, ?_, hnonempty⟩
    · rw [ids_of_numbered h.numbered, List.length_reverse]
    · rw [List.getLast?_reverse]
      exact h.last
  · rw [hdrafts]
    refine ⟨by simpa using hid, ?_, by simp⟩
    intro last hlast
    cases hlast
    exact hcontinues

/-- The drafts of a scan have the pieces of its blocks, or one that is empty. -/
theorem pieces_drafts (scan : Scan) :
    scan.drafts.map Draft.piece = scan.pieces ∨
      scan.pieces = [] ∧ ∃ piece, scan.drafts.map Draft.piece = [piece] ∧ piece.items = [] := by
  rcases drafts_eq scan with hdrafts | ⟨hrecent, draft, hdrafts, -, hbody, hbranch, -⟩
  · exact .inl (by rw [hdrafts, Scan.pieces])
  · refine .inr ⟨by rw [Scan.pieces, hrecent]; rfl, draft.piece, by rw [hdrafts]; rfl, ?_⟩
    simp [Draft.piece, Draft.items, hbody, hbranch]

theorem flatMap_drafts {α : Type} (scan : Scan) {f : Piece → List α}
    (hf : ∀ piece, piece.items = [] → f piece = []) :
    (scan.drafts.map Draft.piece).flatMap f = scan.pieces.flatMap f := by
  rcases pieces_drafts scan with hpieces | ⟨hnone, piece, hpieces, hempty⟩
  · rw [hpieces]
  · rw [hpieces, hnone, List.flatMap_singleton, hf piece hempty]
    rfl

/-- Blocks of numbered drafts fall through to the block behind them only. -/
theorem fallsOn_of_ordered {labels : Std.HashMap Nat Label} (drafts : List Draft) :
    ∀ {blocks : List BasicBlock} {start : Nat},
      drafts.map (·.id) = List.range' start drafts.length →
      (∀ draft ∈ drafts.getLast?, draft.continues = false) →
      List.Forall₂ (fun draft block => Draft.toBlock labels draft = .ok block) drafts blocks →
      FallsOn blocks := by
  induction drafts with
  | nil =>
    intro blocks start _ _ hblocks
    cases hblocks
    trivial
  | cons draft rest ih =>
    intro blocks start hids hlast hblocks
    cases hblocks with
    | cons hblock hrest =>
      obtain ⟨jump, -, -, rfl⟩ := toBlock_eq_ok.mp hblock
      rw [List.map_cons, List.length_cons, List.range'_succ, List.cons.injEq] at hids
      cases hrest with
      | nil =>
        have hcontinues : draft.continues = false := hlast draft rfl
        simp [FallsOn, hcontinues]
      | cons hnext hothers =>
        obtain ⟨jump', -, -, rfl⟩ := toBlock_eq_ok.mp hnext
        rename_i next others others'
        have hid : next.id = draft.id + 1 := by
          rw [hids.1]
          have := hids.2
          rw [List.map_cons, List.length_cons, List.range'_succ, List.cons.injEq] at this
          exact this.1
        refine ⟨?_, ih hids.2 (fun last hmem => hlast last ?_) (.cons hnext hothers)⟩
        · cases draft.continues with
          | false => exact .inl rfl
          | true => exact .inr (by rw [if_pos rfl]; exact congrArg _ (congrArg _ hid.symm))
        · rw [List.getLast?_cons_cons]
          exact hmem

/-- The block of a piece. -/
structure Piece.Fills (piece : Piece) (block : BasicBlock) : Prop where
  id : block.id = piece.id
  line : block.line = piece.line
  size : block.size = piece.items.length

theorem fills_of_toBlock {labels : Std.HashMap Nat Label} {draft : Draft} {block : BasicBlock}
    (h : draft.toBlock labels = .ok block) : draft.piece.Fills block := by
  obtain ⟨hid, hline, hitems⟩ := items_of_toBlock h
  refine ⟨hid, hline, ?_⟩
  rw [← BasicBlock.length_all, ← hitems.length_eq]
  rfl

theorem length_of_fills {pieces : List Piece} {blocks : List BasicBlock}
    (h : List.Forall₂ Piece.Fills pieces blocks) :
    (pieces.flatMap Piece.items).length = BasicBlock.totalSize blocks := by
  induction h with
  | nil => rfl
  | cons hfirst _ ih =>
    rw [List.flatMap_cons, List.length_append, BasicBlock.totalSize_cons, ih, hfirst.size]

theorem tags_of_fills {pieces : List Piece} {blocks : List BasicBlock}
    (h : List.Forall₂ Piece.Fills pieces blocks) :
    Flat.tags blocks = pieces.flatMap Piece.lines := by
  induction h with
  | nil => rfl
  | cons hfirst _ ih =>
    rw [Flat.tags_cons, List.flatMap_cons, ih, Piece.lines, hfirst.size, hfirst.line]

/-- A label of pieces names the same index in their blocks. -/
theorem names_of_at {pieces : List Piece} {blocks : List BasicBlock} {label : Label} {index : Nat}
    (hblocks : List.Forall₂ Piece.Fills pieces blocks) (h : At pieces label index) :
    Flat.Names blocks label index := by
  obtain ⟨before, piece, after, rfl, hid, hlt, rfl⟩ := h
  obtain ⟨front, back, hfront, hback, rfl⟩ := forall₂_append_iff.mp hblocks
  cases hback with
  | cons hblock hafter =>
    refine ⟨front, _, _, rfl, hblock.id.trans hid, by rw [hblock.size]; omega, ?_⟩
    rw [length_of_fills hfront]

/-- Blocks of ordered drafts are numbered from 1. -/
theorem ids_of_ordered {labels : Std.HashMap Nat Label} {drafts : List Draft}
    {blocks : List BasicBlock} (hordered : Ordered drafts)
    (hblocks : List.Forall₂ (fun draft block => draft.toBlock labels = .ok block) drafts blocks) :
    blocks.map (·.id) = List.range' 1 blocks.length := by
  rw [← hblocks.length_eq, ← hordered.ids]
  exact (map_eq_of_forall₂ hblocks fun draft _ block hblock =>
    (items_of_toBlock hblock).1.symm).symm

/-- Blocks of ordered drafts are laid out in their order. -/
theorem linearize_of_ordered {metadata : Metadata} {isa : InstructionSet}
    {labels : Std.HashMap Nat Label} {drafts : List Draft} {blocks : List BasicBlock}
    (hordered : Ordered drafts)
    (hblocks : List.Forall₂ (fun draft block => draft.toBlock labels = .ok block) drafts blocks) :
    linearize { metadata, isa, entry := 1, blocks := blocks.map fun block =>
      (block.id, .basic block) } = .ok blocks := by
  have hfalls := fallsOn_of_ordered drafts hordered.ids hordered.last hblocks
  have hids := ids_of_ordered hordered hblocks
  cases blocks with
  | nil =>
    cases hblocks
    exact absurd rfl hordered.ne_nil
  | cons first rest =>
    have hpairwise : ((first :: rest).map (·.id)).Pairwise (· < ·) := by
      rw [hids]
      exact List.pairwise_lt_range'
    rw [List.map_cons, List.length_cons, List.range'_succ, List.cons.injEq] at hids
    exact linearize_chain (leavesOf_basic _) hpairwise hfalls hids.1.symm

/-! ### Rebuilt graphs -/

/-- The instruction that stands for `d` among the blocks of a rebuilt graph. -/
structure Restores (isa : InstructionSet) (metadata : Metadata) (decoded : List Decoded)
    (blocks : List BasicBlock) (instruction : Instruction) (d : Decoded) : Prop where
  opcode : instruction.opcode = d.opcode
  plain : ∀ kind, isa.operandKind d.opcode = .ok kind → kind.isJump = false →
    Operand.ofArgument kind d.argument metadata = .ok instruction.operand
  branch : ∀ kind, isa.operandKind d.opcode = .ok kind → kind.isJump = true →
    ∃ label index landing, instruction.operand = .label label ∧
      Flat.Names blocks label index ∧ decoded[index]? = some landing ∧
      d.target = some landing.offset

/-- A graph that was read from these instructions, with its blocks in layout order. -/
structure Rebuilt (isa : InstructionSet) (metadata : Metadata) (decoded : List Decoded)
    (graph : Graph) (blocks : List BasicBlock) : Prop where
  isa_eq : graph.isa = isa
  metadata_eq : graph.metadata = metadata
  linear : graph.linearize = .ok blocks
  sorted : ∀ block ∈ blocks, block.Sorted isa
  restores : List.Forall₂ (Restores isa metadata decoded blocks) (blocks.flatMap (·.all)) decoded
  lines : Flat.tags blocks = Decoded.activeFrom none decoded

/-- The bodies of drafts hold no branches, and nothing else stands at their ends. -/
theorem sorted_of_toBlock {isa : InstructionSet} (metadata : Metadata)
    {labels : Std.HashMap Nat Label} {draft : Draft} {block : BasicBlock}
    (h : draft.toBlock labels = .ok block)
    (hitems : ∀ item ∈ draft.items, ∃ d, Item.Of isa metadata item d) : block.Sorted isa := by
  obtain ⟨jump, hsome, hnone, rfl⟩ := toBlock_eq_ok.mp h
  refine ⟨fun instruction hinstruction => ?_, fun instruction hinstruction => ?_⟩
  · obtain ⟨d, kind, hkind, hplain, hopcode, -⟩ :=
      hitems (.plain instruction) (List.mem_append_left _ (List.mem_map_of_mem hinstruction))
    rw [hopcode, InstructionSet.isJump_of_operandKind hkind, hplain]
  · cases hbranch : draft.branch with
    | none =>
      rw [hnone hbranch] at hinstruction
      cases hinstruction
    | some branch =>
      obtain ⟨opcode, target⟩ := branch
      obtain ⟨d, kind, hkind, hjump, hopcode, -⟩ := hitems (.branch opcode target)
        (List.mem_append_right _ (by rw [hbranch]; exact List.mem_singleton_self _))
      obtain ⟨label, -, rfl⟩ := hsome opcode target hbranch
      rw [List.mem_singleton.mp hinstruction]
      rw [hopcode, InstructionSet.isJump_of_operandKind hkind, hjump]

theorem restores_of_item {isa : InstructionSet} {metadata : Metadata} {decoded : List Decoded}
    {blocks : List BasicBlock} {labels : Std.HashMap Nat Label} {item : Item}
    {instruction : Instruction} {d : Decoded}
    (hlabels : ∀ index d, decoded[index]? = some d →
      ∃ label, labels[d.offset]? = some label ∧ Flat.Names blocks label index)
    (hlanding : ∀ target, d.target = some target → target ∈ decoded.map (·.offset))
    (hbecomes : Item.Becomes labels item instruction) (hof : Item.Of isa metadata item d) :
    Restores isa metadata decoded blocks instruction d := by
  cases item with
  | plain held =>
    obtain ⟨kind, hkind, hplain, hopcode, hoperand⟩ := hof
    obtain rfl : instruction = held := hbecomes
    refine ⟨hopcode, fun kind' hkind' _ => ?_, fun kind' hkind' hjump => ?_⟩
    · rw [← Except.ok.inj (hkind.symm.trans hkind')]
      exact hoperand
    · rw [← Except.ok.inj (hkind.symm.trans hkind'), hplain] at hjump
      cases hjump
  | branch opcode target =>
    obtain ⟨kind, hkind, hjump, hopcode, htarget⟩ := hof
    obtain ⟨label, hlabel, rfl⟩ := hbecomes
    refine ⟨hopcode, fun kind' hkind' hplain => ?_, fun kind' hkind' _ => ?_⟩
    · rw [← Except.ok.inj (hkind.symm.trans hkind'), hjump] at hplain
      cases hplain
    · obtain ⟨landing, hmem, hoffset⟩ := List.mem_map.mp (hlanding target htarget)
      obtain ⟨index, hindex⟩ := List.getElem?_of_mem hmem
      obtain ⟨label', hlabel', hnames⟩ := hlabels index landing hindex
      rw [hoffset, hlabel, Option.some.injEq] at hlabel'
      refine ⟨label, index, landing, rfl, hlabel' ▸ hnames, hindex, ?_⟩
      rw [htarget, ← hoffset]

theorem Traced.items_drafts {isa : InstructionSet} {metadata : Metadata}
    {decoded : List Decoded} {scan : Scan} (h : Traced isa metadata decoded scan) :
    List.Forall₂ (Item.Of isa metadata) (scan.drafts.flatMap Draft.items) decoded := by
  have hitems : scan.drafts.flatMap Draft.items = scan.pieces.flatMap Piece.items := by
    rw [← flatMap_drafts scan fun piece hempty => hempty, List.flatMap_map]
    rfl
  rw [hitems]
  exact h.items

/-- The labels of a scan name the instructions they were noted for. -/
theorem Traced.names {isa : InstructionSet} {metadata : Metadata} {decoded : List Decoded}
    {scan : Scan} {blocks : List BasicBlock} (h : Traced isa metadata decoded scan)
    (hfills : List.Forall₂ Piece.Fills (scan.drafts.map Draft.piece) blocks) :
    ∀ index d, decoded[index]? = some d →
      ∃ label, scan.labels[d.offset]? = some label ∧ Flat.Names blocks label index := by
  intro index d hd
  obtain ⟨label, hlabel, hat⟩ := h.labels index d hd
  refine ⟨label, hlabel, names_of_at hfills ?_⟩
  rcases pieces_drafts scan with hpieces | ⟨hnone, -⟩
  · rwa [hpieces]
  · obtain ⟨before, piece, after, hsplit, -⟩ := hat
    rw [hnone] at hsplit
    simp at hsplit

/-- The blocks of a graph that was read from code hold its instructions in their order. -/
theorem rebuilt_of_ofDecoded {isa : InstructionSet} {metadata : Metadata}
    {granularity : Granularity} {decoded : List Decoded} {graph : Graph}
    (hnodup : (decoded.map (·.offset)).Nodup)
    (hlanding : ∀ unit ∈ Decoded.targets decoded, unit ∈ decoded.map (·.offset))
    (h : ofDecoded isa metadata granularity decoded = .ok graph) :
    ∃ blocks, Rebuilt isa metadata decoded graph blocks := by
  obtain ⟨scan, blocks, hscan, hblocks, rfl⟩ := ofDecoded_eq_ok.mp h
  have htraced := Traced.foldlM hnodup hscan
  have hfills : List.Forall₂ Piece.Fills (scan.drafts.map Draft.piece) blocks :=
    List.forall₂_map_left_iff.mpr (hblocks.imp fun draft block => fills_of_toBlock)
  have hof := htraced.items_drafts
  have hbecomes : List.Forall₂ (Item.Becomes scan.labels) (scan.drafts.flatMap Draft.items)
      (blocks.flatMap (·.all)) :=
    forall₂_flatMap_iff.mpr ⟨blocks.map (·.all), List.forall₂_map_right_iff.mpr
      (hblocks.imp fun draft block hblock => (items_of_toBlock hblock).2.2), rfl⟩
  refine ⟨blocks, rfl, rfl, linearize_of_ordered (ordered_drafts htraced.sound) hblocks, ?_, ?_, ?_⟩
  · intro block hblock
    obtain ⟨draft, hdraft, hmade⟩ := exists_of_mem_right hblocks hblock
    refine sorted_of_toBlock metadata hmade fun item hitem => ?_
    obtain ⟨d, -, hd⟩ := exists_of_mem hof (List.mem_flatMap.mpr ⟨draft, hdraft, hitem⟩)
    exact ⟨d, hd⟩
  · refine forall₂_between hbecomes hof fun item instruction hinstruction d hd hitem => ?_
    refine restores_of_item (htraced.names hfills) (fun target htarget => ?_) hinstruction hitem
    exact hlanding target (Decoded.mem_targets.mpr ⟨d, hd, htarget⟩)
  · rw [tags_of_fills hfills, flatMap_drafts scan fun piece hempty => ?_, htraced.lines]
    rw [Piece.lines, hempty]
    rfl

/-- A scan fails exactly where some instruction gives no item, wherever it cuts. -/
theorem foldlM_step_eq_error {isa : InstructionSet} {metadata : Metadata}
    (granularity : Granularity) {error : Error} {decoded : List Decoded} :
    ∀ {scan : Scan}, scan.Sound →
      (decoded.foldlM (Scan.step isa metadata granularity) scan = .error error ↔
        decoded.mapM (Item.read isa metadata) = .error error) := by
  induction decoded with
  | nil =>
    intro scan _
    rw [List.foldlM_nil, List.mapM_nil]
    exact ⟨nofun, nofun⟩
  | cons d rest ih =>
    intro scan hsound
    rw [List.foldlM_cons, List.mapM_cons, bind_eq_error, bind_eq_error, hsound.step_eq_error]
    refine or_congr_right ⟨?_, ?_⟩
    · rintro ⟨next, hnext, h⟩
      obtain ⟨hsound', -, ⟨item, hitem, -⟩, -⟩ := hsound.step hnext
      exact ⟨item, Item.read_eq_ok.mpr hitem, bind_eq_error.mpr (.inl ((ih hsound').mp h))⟩
    · rintro ⟨item, hitem, h⟩
      rcases bind_eq_error.mp h with h | ⟨items, -, h⟩
      · cases hstep : scan.step isa metadata granularity d with
        | error found =>
          rw [hsound.step_eq_error.mp hstep] at hitem
          cases hitem
        | ok next => exact ⟨next, rfl, (ih (hsound.step hstep).1).mpr h⟩
      · cases h

/-- The branches of a scan land on instructions that it has noted. -/
theorem Traced.landing {isa : InstructionSet} {metadata : Metadata} {decoded : List Decoded}
    {scan : Scan} (h : Traced isa metadata decoded scan)
    (hlanding : ∀ unit ∈ Decoded.targets decoded, unit ∈ decoded.map (·.offset)) {draft : Draft}
    (hdraft : draft ∈ scan.drafts) {opcode : UInt8} {target : Nat}
    (hbranch : draft.branch = some (opcode, target)) :
    target ∈ Decoded.targets decoded ∧ ∃ index landing label, decoded[index]? = some landing ∧
      landing.offset = target ∧ scan.labels[target]? = some label ∧ At scan.pieces label index := by
  have hitem : Item.branch opcode target ∈ scan.drafts.flatMap Draft.items :=
    List.mem_flatMap.mpr ⟨draft, hdraft, List.mem_append_right _ (by simp [hbranch])⟩
  obtain ⟨d, hd, kind, -, -, -, htarget⟩ := exists_of_mem h.items_drafts hitem
  have hmem : target ∈ Decoded.targets decoded := Decoded.mem_targets.mpr ⟨d, hd, htarget⟩
  obtain ⟨landing, hlands, hoffset⟩ := List.mem_map.mp (hlanding target hmem)
  obtain ⟨index, hindex⟩ := List.getElem?_of_mem hlands
  obtain ⟨label, hlabel, hat⟩ := h.labels index landing hindex
  exact ⟨hmem, index, landing, label, hindex, hoffset, hoffset ▸ hlabel, hat⟩

theorem Traced.blocks_ok {isa : InstructionSet} {metadata : Metadata} {decoded : List Decoded}
    {scan : Scan} (h : Traced isa metadata decoded scan)
    (hlanding : ∀ unit ∈ Decoded.targets decoded, unit ∈ decoded.map (·.offset)) :
    ∃ blocks, List.Forall₂ (fun draft block => draft.toBlock scan.labels = .ok block) scan.drafts
      blocks := by
  refine exists_forall₂ fun draft hdraft => ?_
  cases hbranch : draft.branch with
  | none => exact ⟨_, toBlock_eq_ok.mpr ⟨none, by simp [hbranch], fun _ => rfl, rfl⟩⟩
  | some branch =>
    obtain ⟨opcode, target⟩ := branch
    obtain ⟨-, index, landing, label, -, -, hlabel, -⟩ := h.landing hlanding hdraft hbranch
    refine ⟨_, toBlock_eq_ok.mpr
      ⟨some { opcode, operand := .label label }, ?_, by simp [hbranch], rfl⟩⟩
    rintro opcode' target' hsame
    rw [hbranch] at hsame
    cases hsame
    exact ⟨label, hlabel, rfl⟩

/-- Code whose branches land in it is rebuilt, unless some instruction gives no item. -/
theorem ofDecoded_eq_error {isa : InstructionSet} {metadata : Metadata} (granularity : Granularity)
    {decoded : List Decoded} (hnodup : (decoded.map (·.offset)).Nodup)
    (hlanding : ∀ unit ∈ Decoded.targets decoded, unit ∈ decoded.map (·.offset)) {error : Error} :
    ofDecoded isa metadata granularity decoded = .error error ↔
      decoded.mapM (Item.read isa metadata) = .error error := by
  rw [ofDecoded, bind_eq_error, ← foldlM_step_eq_error granularity Scan.sound_start]
  refine or_iff_left ?_
  rintro ⟨scan, hscan, h⟩
  obtain ⟨blocks, hblocks⟩ := (Traced.foldlM hnodup hscan).blocks_ok hlanding
  rcases bind_eq_error.mp h with h | ⟨_, -, h⟩
  · rw [mapM_eq_ok.mpr hblocks] at h
    cases h
  · cases h

/-- Code is rebuilt if each of its instructions can be held and its branches land in it. -/
theorem ofDecoded_ok {isa : InstructionSet} {metadata : Metadata} (granularity : Granularity)
    {decoded : List Decoded} (hnodup : (decoded.map (·.offset)).Nodup)
    (hlanding : ∀ unit ∈ Decoded.targets decoded, unit ∈ decoded.map (·.offset))
    (hitems : ∀ d ∈ decoded, ∃ item, Item.Of isa metadata item d) :
    ∃ graph, ofDecoded isa metadata granularity decoded = .ok graph := by
  cases hgraph : ofDecoded isa metadata granularity decoded with
  | ok graph => exact ⟨graph, rfl⟩
  | error error =>
    obtain ⟨items, hread⟩ := exists_forall₂ (R := fun d item =>
      Item.read isa metadata d = .ok item) fun d hd => (hitems d hd).imp fun item hitem =>
        Item.read_eq_ok.mpr hitem
    have herror := (ofDecoded_eq_error granularity hnodup hlanding).mp hgraph
    rw [mapM_eq_ok.mpr hread] at herror
    cases herror

end Graph
end StackCode
