import BinTrace.Flow.Build
import BinTrace.Proofs.Flow.WellFormed
import Mathlib.Data.List.SplitBy

/-!
Building a graph loses nothing. If every instruction holds the bytes of the function that lie at
its address, then a graph that can be built from them is well-formed and its bytes are those of
the function, whatever the jump tables say.
-/

namespace BinTrace.FlowGraph

open Outcome

namespace Source

/-- The instruction lies in the function and holds the bytes that the function has there. -/
structure Holds (s : Source) (i : Instruction) : Prop where
  base_le : s.range.base ≤ i.address
  stop_le : i.stop ≤ s.range.stop
  size_pos : 0 < i.size
  bytes_eq : i.bytes = (s.bytes.drop (i.address - s.range.base)).take i.size

variable {s : Source} {is : List Instruction} {a : Nat}

theorem bytesOfAll_of_contiguous (hc : Contiguous a is) (hh : ∀ i ∈ is, s.Holds i) :
    bytesOfAll is = (s.bytes.drop (a - s.range.base)).take (totalSize is) := by
  induction is generalizing a with
  | nil => simp
  | cons i rest ih =>
      obtain ⟨rfl, hc⟩ := hc
      have hi := hh i List.mem_cons_self
      have hnext : i.stop - s.range.base = i.address - s.range.base + i.size := by
        have := hi.base_le
        simp only [Instruction.stop]
        omega
      rw [bytesOfAll_cons, totalSize_cons, ih hc fun j hj => hh j (List.mem_cons_of_mem _ hj),
        hnext, List.take_add, List.drop_drop, ← hi.bytes_eq]

/-- Where the last instruction of a run stops. -/
theorem stop_getLast_of_contiguous (hc : Contiguous a is) {last : Instruction}
    (hlast : is.getLast? = some last) : last.stop = a + totalSize is := by
  induction is generalizing a with
  | nil => simp at hlast
  | cons i rest ih =>
      obtain ⟨rfl, hc⟩ := hc
      cases rest with
      | nil =>
          simp only [List.getLast?_singleton, Option.some.injEq] at hlast
          subst hlast
          simp [Instruction.stop]
      | cons j rest =>
          rw [List.getLast?_cons_cons] at hlast
          rw [ih hc hlast, totalSize_cons i, Instruction.stop]
          omega

theorem contiguous_of_isChain {i : Instruction}
    (h : (i :: is).IsChain fun j k => j.stop = k.address) : Contiguous i.address (i :: is) := by
  induction is generalizing i with
  | nil => exact ⟨rfl, trivial⟩
  | cons j rest ih =>
      obtain ⟨hij, hrest⟩ := List.isChain_cons_cons.mp h
      exact ⟨rfl, hij ▸ ih hrest⟩

theorem checkOrder_eq_ok : checkOrder is = .ok () ↔
    is.IsChain fun i j => i.address ≠ j.address ∧ i.stop ≤ j.address := by
  fun_induction checkOrder is with
  | case1 i j rest h => simp [h]
  | case2 i j rest hne h => simp; omega
  | case3 i j rest hne h ih =>
      rw [List.isChain_cons_cons, ih]
      simp only [hne, ne_eq, not_false_eq_true, true_and]
      exact ⟨fun hr => ⟨by omega, hr⟩, fun hr => hr.2⟩
  | case4 is h =>
      cases is with
      | nil => simp
      | cons i rest =>
          cases rest with
          | nil => simp
          | cons j rest => exact absurd rfl (h i j rest)

/-- All but the last member of a chain are related to another member. -/
theorem exists_of_mem_dropLast {α : Type} {R : α → α → Prop} {l : List α} (h : l.IsChain R)
    {x : α} (hx : x ∈ l.dropLast) : ∃ y ∈ l, R x y := by
  induction l with
  | nil => cases hx
  | cons y rest ih =>
      cases rest with
      | nil => simp at hx
      | cons z rest =>
          obtain ⟨hyz, hrest⟩ := List.isChain_cons_cons.mp h
          rw [List.dropLast_cons_cons] at hx
          rcases List.mem_cons.mp hx with rfl | hx
          · exact ⟨z, by simp, hyz⟩
          · obtain ⟨w, hw, hxw⟩ := ih hrest hx
            exact ⟨w, List.mem_cons_of_mem _ hw, hxw⟩

/-- A run of `splitBlocks` is contiguous, and no transfer of control stands in front of its end:
the address behind one is a leader. -/
theorem run_of_splitBlocks {ordered run : List Instruction} (hrun : run ∈ s.splitBlocks ordered) :
    run ≠ [] ∧ Contiguous (startOf run) run ∧
      ∀ i ∈ run.dropLast, i.isControl = false := by
  have hne : run ≠ [] := List.ne_nil_of_mem_splitBy hrun
  have hchain := List.isChain_of_mem_splitBy hrun
  refine ⟨hne, ?_, fun i hi => ?_⟩
  · cases run with
    | nil => contradiction
    | cons i rest =>
        refine contiguous_of_isChain (hchain.imp fun j k hjk => ?_)
        simp only [Bool.and_eq_true, decide_eq_true_eq] at hjk
        exact hjk.1
  · obtain ⟨j, -, hij⟩ := exists_of_mem_dropLast hchain hi
    simp only [Bool.and_eq_true, decide_eq_true_eq, Bool.not_eq_true'] at hij
    obtain ⟨hstop, hleader⟩ := hij
    have hmem : i ∈ ordered := by
      rw [← List.flatten_splitBy _ ordered]
      exact List.mem_flatten_of_mem hrun (List.dropLast_subset _ hi)
    cases hcontrol : i.isControl with
    | false => rfl
    | true =>
        have hleads : j.address ∈ ordered.flatMap s.leadersAfter := by
          refine List.mem_flatMap.mpr ⟨i, hmem, ?_⟩
          simp [leadersAfter, hcontrol, hstop]
        rw [← List.contains_iff_mem, hleader] at hleads
        cases hleads

@[simp] theorem instructions_block (starts : List (Nat × Nat)) :
    (s.block starts is).instructions = is := by
  unfold block
  split <;> rfl

@[simp] theorem address_block (starts : List (Nat × Nat)) :
    (s.block starts is).address = startOf is := by
  unfold block
  split <;> rfl

theorem succs_block_subset (starts : List (Nat × Nat)) :
    (s.block starts is).succs ⊆ starts.map Prod.snd := by
  unfold block
  split
  · simp
  · exact List.map_subset _ (List.filter_subset_self _)

theorem mem_predecessors {blocks : List Block} {n m : Nat} :
    n ∈ predecessors blocks m ↔ ∃ b, blocks[n]? = some b ∧ m ∈ b.succs := by
  simp only [predecessors, List.mem_map, List.mem_filter, Prod.exists,
    List.mem_zipIdx_iff_getElem?, List.contains_iff_mem]
  constructor
  · rintro ⟨b, _, ⟨hb, hm⟩, rfl⟩
    exact ⟨b, hb, hm⟩
  · rintro ⟨b, hb, hm⟩
    exact ⟨b, n, ⟨hb, hm⟩, rfl⟩

theorem getElem?_link (blocks : List Block) (n : Nat) :
    (link blocks)[n]? = blocks[n]?.map fun b => { b with preds := predecessors blocks n } := by
  simp only [link, List.getElem?_map, List.getElem?_zipIdx, Option.map_map]
  cases blocks[n]? with
  | none => rfl
  | some b => simp

theorem map_link {β : Type} (f : Block → β) (hf : ∀ b preds, f { b with preds } = f b)
    (blocks : List Block) : (link blocks).map f = blocks.map f := by
  refine List.ext_getElem? fun n => ?_
  rw [List.getElem?_map, getElem?_link, List.getElem?_map, Option.map_map]
  congr 1
  funext b
  exact hf b _

theorem edges_link {blocks : List Block}
    (hb : ∀ b ∈ blocks, ∀ m ∈ b.succs, m < blocks.length) {n : Nat} {b : Block}
    (hn : (link blocks)[n]? = some b) {m : Nat} (hm : m ∈ b.succs) :
    ∃ c, (link blocks)[m]? = some c ∧ n ∈ c.preds := by
  rw [getElem?_link] at hn
  obtain ⟨b, hb', rfl⟩ := Option.map_eq_some_iff.mp hn
  have hlt : m < blocks.length := hb b (List.mem_of_getElem? hb') m hm
  refine ⟨_, by rw [getElem?_link, List.getElem?_eq_getElem hlt]; rfl, ?_⟩
  exact mem_predecessors.mpr ⟨b, hb', hm⟩

theorem succs_draftBlocks_lt {runs : List (List Instruction)} :
    ∀ b ∈ s.draftBlocks runs, ∀ m ∈ b.succs, m < (s.draftBlocks runs).length := by
  intro b hb m hm
  obtain ⟨run, -, rfl⟩ := List.mem_map.mp hb
  obtain ⟨⟨a, k⟩, hk, rfl⟩ := List.mem_map.mp (succs_block_subset _ hm)
  have := (List.mem_zipIdx hk).2.1
  simpa [draftBlocks] using this

theorem wellFormed_of_mem_draftBlocks {ordered : List Instruction} {b : Block}
    (hb : b ∈ s.draftBlocks (s.splitBlocks ordered)) : b.WellFormed := by
  obtain ⟨run, hrun, rfl⟩ := List.mem_map.mp hb
  obtain ⟨hne, hcontiguous, hlast⟩ := run_of_splitBlocks hrun
  refine ⟨by simpa using hne, by simpa using hcontiguous, fun i hi => ?_⟩
  rw [instructions_block] at hi
  simp [Block.isOwnTransfer, hlast i hi]

/-- A block stops in front of the next one. -/
theorem isChain_draftBlocks {ordered : List Instruction}
    (ho : ordered.IsChain fun i j => i.address ≠ j.address ∧ i.stop ≤ j.address) :
    (s.draftBlocks (s.splitBlocks ordered)).IsChain fun b c => b.stop ≤ c.address := by
  rw [← List.flatten_splitBy (fun i j => i.stop = j.address &&
    !(ordered.flatMap s.leadersAfter).contains j.address) ordered,
    List.isChain_flatten (List.nil_notMem_splitBy _ _)] at ho
  rw [draftBlocks, List.isChain_map]
  refine ho.2.imp_of_mem_imp fun run next hrun hnext hlast => ?_
  obtain ⟨hne, hcontiguous, -⟩ := run_of_splitBlocks hrun
  obtain ⟨hne', -, -⟩ := run_of_splitBlocks hnext
  have hend := List.getLast?_eq_some_getLast hne
  have hstart := List.head?_eq_some_head hne'
  simp only [Block.stop, Block.size, instructions_block, address_block]
  rw [← stop_getLast_of_contiguous hcontiguous hend, startOf, hstart]
  exact (hlast _ hend _ hstart).2

theorem blocks_layOut (blocks : List Block) :
    (s.layOut a blocks).filterMap Piece.block? = blocks := by
  induction blocks generalizing a with
  | nil =>
      rw [layOut]
      split <;> rfl
  | cons b rest ih =>
      simp only [layOut]
      split <;> simp [List.filterMap_cons, ih]

theorem length_gap {first stop : Nat} (hs : s.bytes.length = s.range.size)
    (hfirst : s.range.base ≤ first) (hle : first ≤ stop) (hstop : stop ≤ s.range.stop) :
    (s.gap first stop).bytes.length = stop - first := by
  simp only [AddressRange.stop] at hstop
  simp only [gap, List.length_take, List.length_drop]
  omega

theorem base_le_of_holds {b : Block} (hb : b.WellFormed) (hh : ∀ i ∈ b.instructions, s.Holds i) :
    s.range.base ≤ b.address := by
  obtain ⟨hne, hcontiguous, -⟩ := hb
  cases hi : b.instructions with
  | nil => contradiction
  | cons i rest =>
      rw [hi] at hcontiguous hh
      rw [← hcontiguous.1]
      exact (hh i List.mem_cons_self).base_le

theorem stop_le_of_holds {b : Block} (hb : b.WellFormed) (hh : ∀ i ∈ b.instructions, s.Holds i) :
    b.stop ≤ s.range.stop := by
  have hlast := List.getLast?_eq_some_getLast hb.nonempty
  rw [Block.stop, Block.size, ← stop_getLast_of_contiguous hb.contiguous hlast]
  exact (hh _ (List.mem_of_getLast? hlast)).stop_le

theorem take_append_drop_of_le (bytes : List UInt8) {base m n : Nat} (hm : base ≤ m)
    (hn : m ≤ n) : (bytes.drop (m - base)).take (n - m) ++ bytes.drop (n - base) =
      bytes.drop (m - base) := by
  have hsplit : n - base = m - base + (n - m) := by omega
  rw [hsplit, ← List.drop_drop, List.take_append_drop]

/-- Blocks in the order of their addresses are laid out so that the pieces tile the function from
`a` on and hold its bytes. -/
theorem layOut_spec (hs : s.bytes.length = s.range.size) {blocks : List Block}
    (hbase : s.range.base ≤ a) (hfirst : ∀ b ∈ blocks.head?, a ≤ b.address)
    (hstop : a ≤ s.range.stop) (hwf : ∀ b ∈ blocks, b.WellFormed)
    (hh : ∀ b ∈ blocks, ∀ i ∈ b.instructions, s.Holds i)
    (hchain : blocks.IsChain fun b c => b.stop ≤ c.address) :
    Tiles a s.range.stop (s.layOut a blocks) ∧
      (s.layOut a blocks).flatMap Piece.bytes = s.bytes.drop (a - s.range.base) := by
  have hlen : s.bytes.length = s.range.stop - s.range.base := by
    simp only [AddressRange.stop]
    omega
  induction blocks generalizing a with
  | nil =>
      rw [layOut]
      split
      · rename_i hlt
        have hgap := length_gap hs hbase hstop (Nat.le_refl _)
        have hall := take_append_drop_of_le s.bytes hbase hstop
        rw [List.drop_of_length_le (by omega : s.bytes.length ≤ s.range.stop - s.range.base),
          List.append_nil] at hall
        refine ⟨⟨rfl, ?_⟩, by simpa [Piece.bytes, gap] using hall⟩
        simp only [Piece.size, hgap, Tiles]
        omega
      · have ha : a = s.range.stop := by omega
        subst ha
        exact ⟨rfl, by simp [← hlen]⟩
  | cons b rest ih =>
      have hb : a ≤ b.address := hfirst b rfl
      have hblock := hwf b List.mem_cons_self
      have hle := stop_le_of_holds hblock (hh b List.mem_cons_self)
      have hbytes : b.bytes = (s.bytes.drop (b.address - s.range.base)).take b.size :=
        bytesOfAll_of_contiguous hblock.contiguous (hh b List.mem_cons_self)
      have hnext : b.address ≤ b.stop := Nat.le_add_right _ _
      obtain ⟨htiles, hrest⟩ := ih (a := b.stop) (by omega)
        (fun c hc => (List.isChain_cons.mp hchain).1 c hc) hle
        (fun c hc => hwf c (List.mem_cons_of_mem _ hc))
        (fun c hc => hh c (List.mem_cons_of_mem _ hc)) (List.isChain_cons.mp hchain).2
      have hcode : b.bytes ++ (s.layOut b.stop rest).flatMap Piece.bytes =
          s.bytes.drop (b.address - s.range.base) := by
        have hsize : b.size = b.stop - b.address := by simp [Block.stop]
        rw [hrest, hbytes, hsize]
        exact take_append_drop_of_le _ (by omega) hnext
      rw [layOut]
      split
      · have hgap := length_gap hs hbase hb (by omega)
        refine ⟨⟨rfl, ?_⟩, ?_⟩
        · have hto : a + (Piece.raw (s.gap a b.address)).size = b.address := by
            simp only [Piece.size, hgap]
            omega
          rw [hto]
          exact ⟨rfl, htiles⟩
        · simp only [List.flatMap_cons, Piece.bytes, hcode]
          exact take_append_drop_of_le _ hbase hb
      · have ha : a = b.address := by omega
        subst ha
        exact ⟨⟨rfl, htiles⟩, by simpa [Piece.bytes] using hcode⟩

theorem assemble_spec (hs : s.bytes.length = s.range.size) {ordered : List Instruction}
    (hh : ∀ i ∈ ordered, s.Holds i)
    (hchain : ordered.IsChain fun i j => i.address ≠ j.address ∧ i.stop ≤ j.address) :
    (s.assemble ordered).WellFormed ∧ (s.assemble ordered).dump = s.bytes := by
  have hblocks : (s.assemble ordered).blocks = link (s.draftBlocks (s.splitBlocks ordered)) :=
    blocks_layOut _
  have hmem : ∀ b ∈ link (s.draftBlocks (s.splitBlocks ordered)), ∃ c ∈ s.draftBlocks
      (s.splitBlocks ordered), b.address = c.address ∧ b.instructions = c.instructions := by
    intro b hb
    obtain ⟨n, hn⟩ := List.getElem?_of_mem hb
    rw [getElem?_link] at hn
    obtain ⟨c, hc, rfl⟩ := Option.map_eq_some_iff.mp hn
    exact ⟨c, List.mem_of_getElem? hc, rfl, rfl⟩
  have hwf : ∀ b ∈ link (s.draftBlocks (s.splitBlocks ordered)), b.WellFormed := by
    intro b hb
    obtain ⟨c, hc, ha, hi⟩ := hmem b hb
    exact (wellFormed_of_mem_draftBlocks hc).of_eq ha hi
  have hholds : ∀ b ∈ link (s.draftBlocks (s.splitBlocks ordered)),
      ∀ i ∈ b.instructions, s.Holds i := by
    intro b hb i hi
    obtain ⟨c, hc, -, hsame⟩ := hmem b hb
    obtain ⟨run, hrun, rfl⟩ := List.mem_map.mp hc
    rw [hsame, instructions_block] at hi
    apply hh
    rw [← List.flatten_splitBy _ ordered]
    exact List.mem_flatten_of_mem hrun hi
  have hordered : (link (s.draftBlocks (s.splitBlocks ordered))).IsChain
      fun b c => b.stop ≤ c.address := by
    have hsame := map_link (fun b => (b.address, b.stop)) (fun b preds => rfl)
      (s.draftBlocks (s.splitBlocks ordered))
    have hdraft := isChain_draftBlocks (s := s) hchain
    rw [← List.isChain_map (fun b : Block => (b.address, b.stop)) (R := fun b c => b.2 ≤ c.1)]
      at hdraft ⊢
    rw [hsame]
    exact hdraft
  have hfirst : ∀ b ∈ (link (s.draftBlocks (s.splitBlocks ordered))).head?,
      s.range.base ≤ b.address := fun b hb =>
    base_le_of_holds (hwf b (List.mem_of_mem_head? hb)) (hholds b (List.mem_of_mem_head? hb))
  obtain ⟨htiles, hbytes⟩ := layOut_spec hs (Nat.le_refl _) hfirst (Nat.le_add_right _ _) hwf
    hholds hordered
  refine ⟨⟨htiles, by rwa [hblocks], fun n b hb m hm => ?_⟩, by simpa [dump, assemble] using hbytes⟩
  rw [block?, hblocks] at hb
  simp only [block?, hblocks]
  exact edges_link succs_draftBlocks_lt hb hm

/-- Splitting into blocks and laying them out loses no instruction. -/
theorem instructions_assemble (s : Source) (ordered : List Instruction) :
    (s.assemble ordered).instructions = ordered := by
  have hblocks : (s.assemble ordered).blocks = link (s.draftBlocks (s.splitBlocks ordered)) :=
    blocks_layOut _
  have hruns : (s.draftBlocks (s.splitBlocks ordered)).map Block.instructions =
      s.splitBlocks ordered := by
    simp [draftBlocks, Function.comp_def]
  rw [FlowGraph.instructions, hblocks, List.flatMap_def, map_link _ (fun b preds => rfl), hruns]
  exact List.flatten_splitBy _ _

end Source

theorem markReachable_eq (g : FlowGraph) :
    markReachable g = g ∨ ∃ f, KeepsCode f ∧ markReachable g = g.mapBlocks f := by
  unfold markReachable
  split
  · exact .inl rfl
  · refine .inr ⟨_, ?_, rfl⟩
    exact fun n b => ⟨rfl, rfl, rfl, rfl⟩

/-- What a graph consists of if it can be built. -/
theorem build_eq_ok {s : Source} {is : List Instruction} {g : FlowGraph} (h : build s is = .ok g) :
    ∃ ordered, ordered.Perm is ∧
      (ordered.IsChain fun i j => i.address ≠ j.address ∧ i.stop ≤ j.address) ∧
      g = markReachable (s.assemble ordered) := by
  unfold build at h
  rw [seq_eq_ok, seq_eq_ok, Source.checkOrder_eq_ok] at h
  obtain ⟨hchain, -, hg⟩ := h
  exact ⟨_, List.mergeSort_perm is _, hchain, (Except.ok.inj hg).symm⟩

theorem inside_of_build {s : Source} {is : List Instruction} {g : FlowGraph}
    (h : build s is = .ok g) : ∀ i ∈ is, s.range.base ≤ i.address ∧ i.stop ≤ s.range.stop := by
  unfold build at h
  rw [seq_eq_ok, seq_eq_ok] at h
  intro i hi
  have hinside := h.2.1
  unfold Source.checkInside at hinside
  split at hinside
  · cases hinside
  · rename_i hnone
    have hi' := List.find?_eq_none.mp hnone i ((List.mergeSort_perm is _).mem_iff.mpr hi)
    simp only [Bool.or_eq_true, decide_eq_true_eq] at hi'
    omega

/-- A graph has exactly the instructions that it was built from. -/
theorem instructions_build {s : Source} {is : List Instruction} {g : FlowGraph}
    (h : build s is = .ok g) : g.instructions.Perm is := by
  obtain ⟨ordered, hperm, -, rfl⟩ := build_eq_ok h
  rcases markReachable_eq (s.assemble ordered) with heq | ⟨f, hf, heq⟩
  · rwa [heq, Source.instructions_assemble]
  · rwa [heq, instructions_mapBlocks hf, Source.instructions_assemble]

theorem build_wellFormed {s : Source} (hs : s.bytes.length = s.range.size)
    {is : List Instruction} (hh : ∀ i ∈ is, s.Holds i) {g : FlowGraph} (h : build s is = .ok g) :
    g.WellFormed ∧ g.base = s.range.base ∧ g.size = s.range.size ∧ g.dump = s.bytes := by
  obtain ⟨ordered, hperm, hchain, rfl⟩ := build_eq_ok h
  obtain ⟨hwf, hdump⟩ := Source.assemble_spec hs (fun i hi => hh i (hperm.mem_iff.mp hi)) hchain
  rcases markReachable_eq (s.assemble ordered) with heq | ⟨f, hf, heq⟩
  · rw [heq]
    exact ⟨hwf, rfl, rfl, hdump⟩
  · rw [heq]
    exact ⟨hwf.mapBlocks hf, rfl, rfl, (dump_mapBlocks hf _).trans hdump⟩

/-- Instructions that lie one behind the other never collide. -/
theorem build_of_contiguous {s : Source} {a : Nat} {is : List Instruction}
    (hc : Contiguous a is) (hh : ∀ i ∈ is, s.Holds i) : ∃ g, build s is = .ok g := by
  have hpairs := hc.pairwise
  have hsorted : is.mergeSort (fun i j => i.address ≤ j.address) = is := by
    refine List.mergeSort_of_pairwise (hpairs.imp fun {i j} hij => ?_)
    simp only [Instruction.stop] at hij
    exact decide_eq_true (by omega)
  have horder : Source.checkOrder is = .ok () := by
    refine Source.checkOrder_eq_ok.mpr (List.Pairwise.isChain ?_)
    refine hpairs.imp_of_mem fun {i j} hi _ hij => ⟨?_, hij⟩
    have := (hh i hi).size_pos
    simp only [Instruction.stop] at hij
    omega
  have hinside : s.checkInside is = .ok () := by
    have hnone : is.find? (fun i => i.address < s.range.base || s.range.stop < i.stop) = none := by
      refine List.find?_eq_none.mpr fun i hi => ?_
      have hbase := (hh i hi).base_le
      have hstop := (hh i hi).stop_le
      simp only [Bool.or_eq_true, decide_eq_true_eq]
      omega
    rw [Source.checkInside, hnone]
  refine ⟨markReachable (s.assemble is), ?_⟩
  rw [build, hsorted, seq_eq_ok, seq_eq_ok]
  exact ⟨horder, hinside, rfl⟩

end BinTrace.FlowGraph
