import BinTrace.Proofs.Flow.Leaders
import BinTrace.Proofs.Flow.Places
import BinTrace.Proofs.Flow.Reach

/-!
The edges of a graph that has been built are the flow of control between its instructions. No
transfer of control stands in front of the end of a block and nothing but the first instruction of
a block can be reached from elsewhere, so that the edges lose no way that control can take, and add
none.
-/

namespace BinTrace.FlowGraph

open Outcome Source

/-- Control can pass from one instruction to another: behind it, to its own target inside the
function, or to a target of its table. -/
inductive Source.Passes (s : Source) (i j : Instruction) : Prop
  | onward (hfalls : i.fallsThrough = true) (hj : j.address = i.stop)
  | direct (hnone : s.table? i = none) (htarget : i.controlTarget? = some j.address)
      (hin : s.range.contains j.address = true)
  | listed {t : JumpTable} (ht : s.table? i = some t) (hj : j.address ∈ t.targets)

/-- The blocks are the runs of instructions between the leaders. -/
structure Cut (g : FlowGraph) (s : Source) : Prop where
  runs : g.blocks.map Block.instructions = s.splitBlocks g.instructions
  address_eq : ∀ b ∈ g.blocks, b.address = startOf b.instructions
  ordered : g.instructions.Pairwise fun i j => i.stop ≤ j.address
  inside : ∀ i ∈ g.instructions, s.range.base ≤ i.address ∧ i.stop ≤ s.range.stop

/-- The instructions of a graph that was built from `is` have one place each, and what the graph
says about its edges is what control does. -/
structure Traces (g : FlowGraph) (s : Source) (is : List Instruction) : Prop where
  existsUnique_place {i : Instruction} : i ∈ is → ∃! p, g.instruction? p = some i
  mem_of_place {p : Place} {i : Instruction} : g.instruction? p = some i → i ∈ is
  follows_iff {p q : Place} {i j : Instruction} : g.instruction? p = some i →
    g.instruction? q = some j → (g.Follows p q ↔ s.Passes i j)
  nodup : ∀ b ∈ g.blocks, b.succs.Nodup ∧ b.preds.Nodup
  mirrored : g.Mirrored
  isUnreachable_iff {n : Nat} {b : Block} : g.block? n = some b → ∃ entry,
    g.entryBlock? = some entry ∧ (b.flags.isUnreachable = true ↔ ¬ Reaches g.Leads entry n)

variable {g : FlowGraph} {s : Source} {is : List Instruction} {i j : Instruction} {p q : Place}
  {n k : Nat} {b : Block}

theorem Source.passes_iff : s.Passes i j ↔ j.address ∈ s.targets i := by
  unfold Source.targets
  rw [List.mem_append]
  constructor
  · rintro (⟨hfalls, hj⟩ | ⟨hnone, htarget, hin⟩ | ⟨ht, hj⟩)
    · exact .inl (by simp [hfalls, hj])
    · exact .inr (by simp [hnone, htarget, hin])
    · exact .inr (by simpa [ht] using hj)
  · rintro (hj | hj)
    · cases hfalls : i.fallsThrough with
      | false => simp [hfalls] at hj
      | true => exact .onward hfalls (by simpa [hfalls] using hj)
    · cases ht : s.table? i with
      | some t => exact .listed ht (by simpa [ht] using hj)
      | none =>
          simp only [ht, List.mem_filter, Option.mem_toList] at hj
          exact .direct ht hj.1 hj.2

theorem isControl_of_isIndirectBranch (h : i.isIndirectBranch = true) : i.isControl = true := by
  revert h
  unfold Instruction.isIndirectBranch Instruction.isBranch Instruction.isControl
  cases i.opcodeClass <;> simp

theorem Source.targets_of_not_isControl (hcontrol : i.isControl = false)
    (hfalls : i.fallsThrough = true) (hnone : s.table? i = none) : s.targets i = [i.stop] := by
  have hown : i.controlTarget? = none := by
    have hother : (i.isBranch || i.isCall) = false := by
      revert hcontrol
      unfold Instruction.isControl Instruction.isBranch Instruction.isCall
      cases i.opcodeClass <;> simp
    rw [Instruction.controlTarget?, hother, if_neg Bool.false_ne_true]
  simp [Source.targets, hnone, hown, hfalls]

/-! Places. -/

/-- Places are in the order of the addresses. -/
theorem Sequenced.address_lt (hg : g.Sequenced) (hp : g.instruction? p = some i)
    (hq : g.instruction? q = some j)
    (h : p.block < q.block ∨ p.block = q.block ∧ p.index < q.index) : i.address < j.address := by
  obtain ⟨b, hb, hi⟩ := instruction?_eq_some.mp hp
  obtain ⟨c, hc, hj⟩ := instruction?_eq_some.mp hq
  obtain ⟨hwithin, hacross⟩ := List.pairwise_flatMap.mp hg.increasing
  obtain ⟨hpb, rfl⟩ := List.getElem?_eq_some_iff.mp hb
  obtain ⟨hqc, rfl⟩ := List.getElem?_eq_some_iff.mp hc
  rcases h with hlt | ⟨heq, hlt⟩
  · exact List.pairwise_iff_getElem.mp hacross _ _ hpb hqc hlt i (List.mem_of_getElem? hi) j
      (List.mem_of_getElem? hj)
  · simp only [heq] at hi
    obtain ⟨hpi, rfl⟩ := List.getElem?_eq_some_iff.mp hi
    obtain ⟨hqj, rfl⟩ := List.getElem?_eq_some_iff.mp hj
    exact List.pairwise_iff_getElem.mp (hwithin _ (List.getElem_mem hqc)) _ _ hpi hqj hlt

theorem Sequenced.place_unique (hg : g.Sequenced) (hp : g.instruction? p = some i)
    (hq : g.instruction? q = some j) (h : i.address = j.address) : p = q := by
  have hforth := hg.address_lt hp hq
  have hback := hg.address_lt hq hp
  obtain ⟨n, k⟩ := p
  obtain ⟨m, l⟩ := q
  simp only [Place.mk.injEq] at hforth hback ⊢
  omega

theorem exists_place (hi : i ∈ g.instructions) : ∃ p, g.instruction? p = some i := by
  obtain ⟨b, hb, hib⟩ := List.mem_flatMap.mp hi
  obtain ⟨n, hn⟩ := List.getElem?_of_mem hb
  obtain ⟨k, hk⟩ := List.getElem?_of_mem hib
  exact ⟨⟨n, k⟩, instruction?_eq_some.mpr ⟨b, hn, hk⟩⟩

/-! How the instructions are cut into blocks. -/

namespace Cut

/-- Behind an instruction stands the next one of its block, which is no leader. -/
theorem stop_eq (hg : g.Cut s) (hb : g.block? n = some b) (hi : b.instructions[k]? = some i)
    (hj : b.instructions[k + 1]? = some j) :
    i.stop = j.address ∧ j.address ∉ g.instructions.flatMap s.leadersAfter := by
  have hrun := List.mem_map_of_mem (f := Block.instructions) (List.mem_of_getElem? hb)
  rw [hg.runs] at hrun
  obtain ⟨hk, rfl⟩ := List.getElem?_eq_some_iff.mp hi
  obtain ⟨hk', rfl⟩ := List.getElem?_eq_some_iff.mp hj
  have hnext := List.isChain_iff_getElem.mp (List.isChain_of_mem_splitBy hrun) k hk'
  rw [Bool.and_eq_true, decide_eq_true_eq, Bool.not_eq_true', ← Bool.not_eq_true,
    List.contains_iff_mem] at hnext
  exact hnext

/-- Control turns away at most at the end of a block. -/
theorem targets_eq (hg : g.Cut s) (hb : g.block? n = some b) (hi : b.instructions[k]? = some i)
    (hj : b.instructions[k + 1]? = some j)
    (htable : ∀ t, s.table? i = some t → i.isControl = true) : s.targets i = [j.address] := by
  obtain ⟨hstop, hleader⟩ := hg.stop_eq hb hi hj
  have hmem : i ∈ g.instructions :=
    List.mem_flatMap.mpr ⟨b, List.mem_of_getElem? hb, List.mem_of_getElem? hi⟩
  have hstays : (i.isControl || !i.fallsThrough) = false := by
    by_contra hturns
    rw [Bool.not_eq_false] at hturns
    refine hleader (List.mem_flatMap.mpr ⟨i, hmem, List.mem_append_left _ ?_⟩)
    rw [if_pos hturns, hstop]
    exact List.mem_singleton_self _
  rw [Bool.or_eq_false_iff, Bool.not_eq_false'] at hstays
  have hnone : s.table? i = none := by
    cases ht : s.table? i with
    | none => rfl
    | some t => exact absurd (htable t ht) (by simp [hstays.1])
  rw [← hstop]
  exact targets_of_not_isControl hstays.1 hstays.2 hnone

theorem eq_of_stop_eq (hg : g.Cut s) (hi : i ∈ g.instructions) (hj : j ∈ g.instructions)
    (hisize : 0 < i.size) (hjsize : 0 < j.size) (h : i.stop = j.stop) : i = j := by
  by_contra hne
  have hpairs : g.instructions.Pairwise fun i j => i.stop ≤ j.address ∨ j.stop ≤ i.address :=
    hg.ordered.imp .inl
  have hsymm : Std.Symm fun i j : Instruction => i.stop ≤ j.address ∨ j.stop ≤ i.address :=
    ⟨fun _ _ h => h.symm⟩
  have hapart := hpairs.forall hi hj hne
  simp only [Instruction.stop] at h hapart
  omega

/-- From the end of a block control passes to no place inside of a block. -/
theorem index_eq_zero (hg : g.Cut s) (hs : g.Sequenced) (hsize : ∀ i ∈ g.instructions, 0 < i.size)
    (hb : g.block? n = some b) (hi : b.instructions[k]? = some i)
    (hlast : k + 1 = b.instructions.length) (hq : g.instruction? q = some j)
    (h : s.Passes i j) : q.index = 0 := by
  obtain ⟨m, l⟩ := q
  obtain ⟨c, hc, hj⟩ := instruction?_eq_some.mp hq
  cases l with
  | zero => rfl
  | succ l =>
      have hlt : l + 1 < c.instructions.length := (List.getElem?_eq_some_iff.mp hj).1
      have hbefore : c.instructions[l]? = some c.instructions[l] := List.getElem?_eq_getElem _
      obtain ⟨hstop, hleader⟩ := hg.stop_eq hc hbefore hj
      have hp : g.instruction? ⟨n, k⟩ = some i := instruction?_eq_some.mpr ⟨b, hb, hi⟩
      have hp' : g.instruction? ⟨m, l⟩ = some c.instructions[l] :=
        instruction?_eq_some.mpr ⟨c, hc, hbefore⟩
      have himem := mem_instructions_of_instruction? hp
      have hjmem := mem_instructions_of_instruction? hq
      have hleads (haims : s.Aims i j.address) (hin : s.range.contains j.address = true) : False :=
        hleader (List.mem_flatMap.mpr ⟨i, himem, mem_leadersAfter haims hin⟩)
      cases h with
      | onward hfalls hnext =>
          -- The instruction in front of `j` stops where `i` does, but is not the last of a block.
          have hmem := mem_instructions_of_instruction? hp'
          have heq := hg.eq_of_stop_eq himem hmem (hsize i himem) (hsize _ hmem)
            (hnext.symm.trans hstop.symm)
          rw [← heq] at hp'
          cases hs.place_unique hp hp' rfl
          obtain rfl := Option.some.inj (hb.symm.trans hc)
          omega
      | direct hnone htarget hin => exact (hleads (.inl htarget) hin).elim
      | listed ht hlisted =>
          refine (hleads (.inr ⟨_, ht, hlisted⟩) ?_).elim
          have hin := hg.inside j hjmem
          have hpos := hsize j hjmem
          rw [Instruction.stop, AddressRange.stop] at hin
          rw [AddressRange.contains_iff]
          omega

/-- Edges and neighbours in blocks are where control passes. -/
theorem follows_iff_passes (hg : g.Cut s) (hs : g.Sequenced) (hjoined : g.Joined s)
    (hsize : ∀ i ∈ g.instructions, 0 < i.size)
    (htable : ∀ i ∈ g.instructions, ∀ t, s.table? i = some t → i.isControl = true)
    (hp : g.instruction? p = some i) (hq : g.instruction? q = some j) :
    g.Follows p q ↔ s.Passes i j := by
  obtain ⟨n, k⟩ := p
  obtain ⟨b, hb, hi⟩ := instruction?_eq_some.mp hp
  have hk : k < b.instructions.length := (List.getElem?_eq_some_iff.mp hi).1
  rcases Nat.lt_or_eq_of_le (Nat.succ_le_of_lt hk) with hnext | hlast
  · have hnext' : b.instructions[k + 1]? = some b.instructions[k + 1] :=
      List.getElem?_eq_getElem hnext
    have hq' : g.instruction? ⟨n, k + 1⟩ = some b.instructions[k + 1] :=
      instruction?_eq_some.mpr ⟨b, hb, hnext'⟩
    have htargets := hg.targets_eq hb hi hnext' (htable i (mem_instructions_of_instruction? hp))
    rw [follows_iff_within hb hnext, passes_iff, htargets, List.mem_singleton]
    constructor
    · rintro rfl
      rw [Option.some.inj (hq.symm.trans hq')]
    · exact hs.place_unique hq hq'
  · have hend : b.instructions.getLast? = some i := by
      rwa [List.getLast?_eq_getElem?, ← hlast, Nat.succ_sub_one]
    have hsuccs := hjoined.mem_succs_iff (List.mem_of_getElem? hb) hend
    rw [follows_iff_across hb hlast]
    obtain ⟨m, l⟩ := q
    obtain ⟨c, hc, hj⟩ := instruction?_eq_some.mp hq
    -- At the start of a block, `j` has the block's address.
    have hstart (hl : l = 0) : c.address = j.address := by
      subst hl
      rw [hg.address_eq c (List.mem_of_getElem? hc), startOf, List.head?_eq_getElem?, hj]
      rfl
    constructor
    · rintro ⟨m', hm, heq⟩
      obtain ⟨rfl, hl⟩ := Place.mk.inj heq
      obtain ⟨c', hc', htarget⟩ := (hsuccs m).mp hm
      obtain rfl := Option.some.inj (hc.symm.trans hc')
      rw [passes_iff, ← hstart hl]
      exact htarget
    · intro hpasses
      have hl : l = 0 := hg.index_eq_zero hs hsize hb hi hlast hq hpasses
      refine ⟨m, (hsuccs m).mpr ⟨c, hc, ?_⟩, by rw [hl]⟩
      rw [hstart hl]
      exact passes_iff.mp hpasses

theorem mapBlocks {f : Nat → Block → Block} (hf : KeepsCode f) (hg : g.Cut s) :
    (g.mapBlocks f).Cut s := by
  refine ⟨?_, fun c hc => ?_, ?_, ?_⟩
  · rw [map_mapBlocks fun n b => (hf n b).2.1, instructions_mapBlocks hf]
    exact hg.runs
  · obtain ⟨n, b, hb, rfl⟩ := mem_blocks_mapBlocks.mp hc
    rw [(hf n b).1, (hf n b).2.1]
    exact hg.address_eq b (List.mem_of_getElem? hb)
  · rw [instructions_mapBlocks hf]
    exact hg.ordered
  · rw [instructions_mapBlocks hf]
    exact hg.inside

end Cut

theorem Source.cut_assemble {ordered : List Instruction}
    (hchain : ordered.IsChain fun i j => i.address ≠ j.address ∧ i.stop ≤ j.address)
    (hin : ∀ i ∈ ordered, s.range.base ≤ i.address ∧ i.stop ≤ s.range.stop) :
    (s.assemble ordered).Cut s := by
  have hsame := s.map_address_assemble ordered
  rw [← s.map_instructions_assemble, List.map_map, List.map_inj_left] at hsame
  have htrans : IsTrans Instruction fun i j => i.stop ≤ j.address :=
    ⟨fun i j k hij hjk => by
      rw [Instruction.stop] at hjk
      omega⟩
  refine ⟨?_, hsame, ?_, ?_⟩
  · rw [s.map_instructions_assemble, s.instructions_assemble]
  · rw [s.instructions_assemble]
    exact List.isChain_iff_pairwise.mp (hchain.imp fun i j h => h.2)
  · rwa [s.instructions_assemble]

theorem cut_of_build (h : build s is = .ok g) : g.Cut s := by
  have hin := inside_of_build h
  obtain ⟨ordered, hperm, hchain, rfl⟩ := build_eq_ok h
  have hcut := Source.cut_assemble hchain fun i hi => hin i (hperm.mem_iff.mp hi)
  rcases markReachable_eq (s.assemble ordered) with heq | ⟨f, hf, heq⟩
  · rwa [heq]
  · rw [heq]
    exact hcut.mapBlocks hf

/-! Every edge is recorded once. -/

theorem nodup_zipIdx_filter {α : Type} (l : List α) (keep : α × Nat → Bool) :
    ((l.zipIdx.filter keep).map Prod.snd).Nodup := by
  refine List.Nodup.sublist (List.filter_sublist.map Prod.snd) ?_
  rw [List.zipIdx_map_snd]
  exact List.nodup_range'

theorem nodup_of_build (h : build s is = .ok g) : ∀ b ∈ g.blocks, b.succs.Nodup ∧ b.preds.Nodup := by
  obtain ⟨ordered, -, -, rfl⟩ := build_eq_ok h
  have hblocks : (s.assemble ordered).blocks = link (s.draftBlocks (s.splitBlocks ordered)) :=
    blocks_layOut _
  have hassembled : ∀ b ∈ (s.assemble ordered).blocks, b.succs.Nodup ∧ b.preds.Nodup := by
    intro b hb
    obtain ⟨n, hn⟩ := List.getElem?_of_mem hb
    rw [hblocks, getElem?_link] at hn
    obtain ⟨c, hc, rfl⟩ := Option.map_eq_some_iff.mp hn
    obtain ⟨run, -, rfl⟩ := List.mem_map.mp (List.mem_of_getElem? hc)
    refine ⟨?_, nodup_zipIdx_filter _ _⟩
    unfold Source.block
    split
    · exact List.nodup_nil
    · exact nodup_zipIdx_filter _ _
  rcases markReachable_eq (s.assemble ordered) with heq | ⟨f, hf, heq⟩
  · rwa [heq]
  · rw [heq]
    intro b hb
    obtain ⟨n, c, hc, rfl⟩ := mem_blocks_mapBlocks.mp hb
    rw [(hf n c).2.2.1, (hf n c).2.2.2]
    exact hassembled c (List.mem_of_getElem? hc)

/-! What cannot be reached is marked. -/

theorem entryBlock?_eq (g : FlowGraph) : g.entryBlock? =
    match g.blocks.map Block.address with
    | [] => none
    | starts => some ((starts.findIdx? fun a => a = g.base).getD 0) := by
  unfold entryBlock?
  cases g.blocks with
  | nil => rfl
  | cons b rest => simp [List.findIdx?_cons, List.findIdx?_map, Function.comp_def]

theorem entryBlock?_mapBlocks {f : Nat → Block → Block} (hf : KeepsCode f) :
    (g.mapBlocks f).entryBlock? = g.entryBlock? := by
  rw [entryBlock?_eq, entryBlock?_eq, map_mapBlocks fun n b => (hf n b).1]
  rfl

theorem exists_entryBlock? (hb : g.block? n = some b) : ∃ entry, g.entryBlock? = some entry := by
  unfold entryBlock?
  split
  · rename_i hempty
    rw [block?, hempty] at hb
    cases hb
  · exact ⟨_, rfl⟩

/-- A block with the marks that say whether it is the entry and whether a path leads there. -/
def reachMark (g : FlowGraph) (entry number : Nat) (b : Block) : Block :=
  { b with flags := { b.flags with
      isEntry := number = entry
      isUnreachable := !(Reach.reachable g.edges entry).contains number } }

theorem keepsCode_reachMark (g : FlowGraph) (entry : Nat) : KeepsCode (g.reachMark entry) :=
  fun _ _ => ⟨rfl, rfl, rfl, rfl⟩

theorem markReachable_of_entryBlock? {entry : Nat} (h : g.entryBlock? = some entry) :
    g.markReachable = g.mapBlocks (g.reachMark entry) := by
  unfold markReachable
  rw [h]
  rfl

theorem Mirrored.isUnreachable_iff (hg : g.Mirrored) (hb : g.markReachable.block? n = some b) :
    ∃ entry, g.markReachable.entryBlock? = some entry ∧
      (b.flags.isUnreachable = true ↔ ¬ Reaches g.markReachable.Leads entry n) := by
  cases hentry : g.entryBlock? with
  | none =>
      obtain ⟨entry, hmarked⟩ := exists_entryBlock? hb
      rw [markReachable, hentry] at hmarked
      cases hentry.symm.trans hmarked
  | some entry =>
      have hf := keepsCode_reachMark g entry
      have hlength : g.edges.size = g.blocks.length := by simp [edges]
      have hleads : HasEdge g.edges = (g.mapBlocks (g.reachMark entry)).Leads := by
        funext v w
        exact propext (hasEdge_edges.trans (leads_mapBlocks hf).symm)
      have hreached : (Reach.reachable g.edges entry).contains n = true ↔
          Reaches (HasEdge g.edges) entry n :=
        Reach.contains_reachable (hlength ▸ entryBlock?_lt hentry)
          fun v w h => hlength ▸ hg.lt (hasEdge_edges.mp h)
      rw [markReachable_of_entryBlock? hentry] at hb ⊢
      refine ⟨entry, (entryBlock?_mapBlocks hf).trans hentry, ?_⟩
      rw [block?_mapBlocks] at hb
      obtain ⟨c, -, rfl⟩ := Option.map_eq_some_iff.mp hb
      rw [← hleads, ← hreached]
      simp [reachMark]

/-- The edges of a graph are the flow of control between the instructions that it was built from,
if tables belong to indirect jumps. -/
theorem traces_of_build (h : build s is = .ok g) (hsize : ∀ i ∈ is, i.bytes ≠ [])
    (htables : ∀ t ∈ s.tables, ∀ i ∈ is, i.address = t.branch → i.isIndirectBranch = true) :
    g.Traces s is := by
  have hmem (i : Instruction) : i ∈ g.instructions ↔ i ∈ is := (instructions_build h).mem_iff
  have hs := sequenced_of_build h
  have hpos : ∀ i ∈ g.instructions, 0 < i.size := fun i hi =>
    List.length_pos_iff.mpr (hsize i ((hmem i).mp hi))
  have hcontrol : ∀ i ∈ g.instructions, ∀ t, s.table? i = some t → i.isControl = true := by
    intro i hi t ht
    have hbranch := List.find?_some (p := fun t : JumpTable => decide (t.branch = i.address)) ht
    have hindirect := htables t (List.mem_reverse.mp (List.mem_of_find?_eq_some ht)) i
      ((hmem i).mp hi) (of_decide_eq_true hbranch).symm
    exact isControl_of_isIndirectBranch hindirect
  refine ⟨fun {i} hi => ?_, fun {p i} hp => ?_, fun {p q i j} hp hq => ?_, nodup_of_build h,
    mirrored_of_build h, fun {n b} hb => ?_⟩
  · obtain ⟨p, hp⟩ := exists_place ((hmem i).mpr hi)
    exact ⟨p, hp, fun q hq => hs.place_unique hq hp rfl⟩
  · exact (hmem i).mp (mem_instructions_of_instruction? hp)
  · exact (cut_of_build h).follows_iff_passes hs (joined_of_build h) hpos hcontrol hp hq
  · obtain ⟨ordered, -, -, rfl⟩ := build_eq_ok h
    exact (s.mirrored_assemble ordered).isUnreachable_iff hb

/-! A jump through a table, with a return behind it to which nothing leads. -/

namespace Switch

def source : Source :=
  ⟨⟨0x1000, 5⟩, [0xff, 0xe0, 0xc3, 0x90, 0xc3], [⟨0x1000, 0x20000, .direct, [0x1003, 0x1004]⟩]⟩

def instructions : List Instruction := [
  { address := 0x1000, bytes := [0xff, 0xe0], opcodeClass := .uncondBranch, mnemonic := "jmp"
    operands := [.ofRegister (.qword .ax)] },
  { address := 0x1002, bytes := [0xc3], opcodeClass := .return, mnemonic := "ret" },
  { address := 0x1003, bytes := [0x90], opcodeClass := .nop, mnemonic := "nop" },
  { address := 0x1004, bytes := [0xc3], opcodeClass := .return, mnemonic := "ret" }]

def graph : FlowGraph :=
  match build source instructions with
  | .ok g => g
  | .error _ => { base := 0, size := 0, pieces := [] }

theorem build_eq : build source instructions = .ok graph := by cbv

end Switch

theorem traces_switch : Switch.graph.Traces Switch.source Switch.instructions :=
  traces_of_build Switch.build_eq (by decide) (by decide)

example : Switch.graph.blocks.map Block.succs = [[2, 3], [], [3], []] := by cbv

example : Switch.graph.blocks.map (fun b => b.flags.isUnreachable) =
    [false, true, false, false] := by cbv

end BinTrace.FlowGraph
