import BinTrace.Proofs.Flow.Relayout
import BinTrace.Proofs.Function.Padding

/-!
What making room does to a laid out graph. The new graph has a part in the place of every
instruction: the instruction itself, perhaps with a wide displacement, and no-ops around it. The
pieces lie one behind the other again, and there is one map of addresses that tells where every
start of an instruction and every raw byte has gone and what every relative operand refers to now.
-/

namespace BinTrace

namespace Instruction

/-- The instruction elsewhere: it does what it did, and its relative operand refers to where the
map sends what it referred to. -/
structure Remade (move : Nat → Nat) (i j : Instruction) : Prop where
  deed : i.SameDeed j
  kinds_eq : j.operands.map Operand.kind = i.operands.map Operand.kind
  others_eq : j.otherOperands = i.otherOperands
  target_eq : j.relativeTarget? = i.relativeTarget?.map fun t => move t % addressSpace
  /-- Without a relative operand nothing but the address changes. -/
  fixed : i.relativeTarget? = none → j = { i with address := j.address }
  /-- Only short branches change their size. -/
  size_eq : j.size = i.size ∨ FlowGraph.needsWidening i = true ∧ i.targetWidth < 4
  /-- It is the instruction with a wide displacement if it is a branch, and placed. -/
  placed : ∃ k, FlowGraph.Widens i k ∧ FlowGraph.Places move k j

end Instruction

namespace FlowGraph

variable {i j : Instruction} {move : Nat → Nat}

theorem Widens.cases (h : Widens i j) :
    j = i ∨ needsWidening i = true ∧ Instruction.widenTarget.run i = .ok () j := by
  rw [Widens] at h
  split at h
  · rename_i hi
    exact .inr ⟨hi, h⟩
  · exact .inl h

theorem Widens.address_eq (h : Widens i j) : j.address = i.address := by
  rcases h.cases with rfl | ⟨-, hrun⟩
  · rfl
  · exact (Instruction.widenTarget_ok hrun).2.1

theorem Widens.size_pos (h : Widens i j) (hpos : 0 < i.size) : 0 < j.size := by
  rcases h.cases with rfl | ⟨-, hrun⟩
  · exact hpos
  · rcases (Instruction.relativeTarget?_widenTarget hrun).2 with rfl | ⟨-, hj⟩
    · exact hpos
    · exact hj

/-- No-ops are not widened. -/
theorem widened_of_isNop (h : Encode.IsNop i) : widened i = i := by
  rw [widened, if_neg]
  simp [needsWidening, h.isControl_eq]

theorem Places.size_eq (h : Places move i j) : j.size = i.size := (placeInstruction_ok h).2.1

/-- A placed no-op is the same no-op elsewhere. -/
theorem Places.isNop (h : Places move i j) (hi : Encode.IsNop i) : Encode.IsNop j := by
  rw [(placeInstruction_ok h).2.2.2.2.2.2 hi.relativeTarget?_eq]
  exact hi.with_address _

theorem remade_of_places {k : Instruction} (hk : Widens i k) (hj : Places move k j) :
    i.Remade move j := by
  obtain ⟨haddress, hsize, hdeed, hkinds, hothers, htarget, hfixed⟩ := placeInstruction_ok hj
  have hplaced : ∃ k, Widens i k ∧ Places move k j := ⟨k, hk, hj⟩
  rcases hk.cases with rfl | ⟨hneeds, hrun⟩
  · exact ⟨hdeed, hkinds, hothers, htarget, hfixed, .inl hsize, hplaced⟩
  · obtain ⟨hwdeed, hwaddress, hwkinds, hwothers, hwfixed⟩ := Instruction.widenTarget_ok hrun
    obtain ⟨hwtarget, hwsize⟩ := Instruction.relativeTarget?_widenTarget hrun
    refine ⟨hwdeed.trans hdeed, hkinds.trans hwkinds, hothers.trans hwothers, ?_, fun hnone => ?_,
      ?_, hplaced⟩
    · rw [htarget, hwtarget]
    · rw [hfixed (hwtarget.trans hnone), hwfixed hnone]
    · rcases hwsize with rfl | ⟨hshort, -⟩
      · exact .inl hsize
      · exact .inr ⟨hneeds, hshort⟩

end FlowGraph

/-- The part of an instruction in a graph with room made in it: no-ops in front of the instruction
and behind it. -/
structure Part.Replaces (move : Nat → Nat) (i : Instruction) (p : Part) : Prop where
  padding : ∀ n ∈ p.front ++ p.behind, Encode.IsNop n
  main : i.Remade move p.main
  start_eq : p.start = move i.address

/-- A block with a part for each instruction, or the same raw bytes, each at a new address. -/
inductive Piece.Expands (move : Nat → Nat) (part : Instruction → Part) : Piece → Piece → Prop
  | code (b : Block) (a : Nat) :
      Expands move part (.code b) (.code { b.expand part with address := a })
  | raw (r : RawBlock) (a : Nat) (h : ∀ k < r.bytes.length, move (r.address + k) = a + k) :
      Expands move part (.raw r) (.raw { r with address := a })

/-- The second graph is the first one with room made in it. -/
structure FlowGraph.Bloats (es : List Expansion) (move : Nat → Nat) (part : Instruction → Part)
    (g g' : FlowGraph) : Prop where
  base_eq : g'.base = g.base
  tiled : Tiles g'.base (g'.base + g'.size) g'.pieces
  contiguous : ∀ b ∈ g'.blocks, Contiguous b.address b.instructions
  pieces : List.Forall₂ (Piece.Expands move part) g.pieces g'.pieces
  parts : ∀ i ∈ g.instructions, (part i).Replaces move i
  /-- No-ops stand behind an instruction only where room was asked for behind it. -/
  behind : ∀ i ∈ g.instructions, (part i).behind ≠ [] →
    ∃ e ∈ es, e.location = .after ∧ 0 < e.size ∧ e.address = i.address
  outside : ∀ a, g.range.contains a = false → move a = a

namespace FlowGraph

variable {g : FlowGraph} {part : Instruction → Part} {move : Nat → Nat}

/-! ### Where the addresses of a laid out graph go -/

theorem LaidOut.sources_bounds (hg : g.LaidOut)
    (hpart : ∀ i ∈ g.instructions, ∀ j ∈ (part i).all, j.address = i.address) {p : Piece}
    (hp : p ∈ g.pieces) : ∀ s ∈ sources (p.expand part), p.address ≤ s ∧ s < p.address + p.size := by
  intro s hs
  cases p with
  | raw r =>
      obtain rfl := List.mem_singleton.mp hs
      exact ⟨Nat.le_refl _, Nat.lt_add_of_pos_right (hg.size_pos hp)⟩
  | code b =>
      have hb := mem_blocks.mpr hp
      obtain ⟨j, hj, rfl⟩ := List.mem_map.mp hs
      obtain ⟨i, hi, hj⟩ := List.mem_flatMap.mp hj
      rw [hpart i (List.mem_flatMap.mpr ⟨b, hb, hi⟩) j hj]
      exact ⟨((hg.blocks b hb).bounds hi).1, (hg.blocks b hb).address_lt hi⟩

/-- A piece of a laid out graph between the ones in front of it and those behind it. -/
theorem LaidOut.around (hg : g.LaidOut) {front rest : List Piece} {p : Piece}
    (hsplit : g.pieces = front ++ p :: rest) : (∀ q ∈ front, q.address + q.size ≤ p.address) ∧
      (∀ q ∈ rest, p.address + p.size ≤ q.address) ∧ g.base ≤ p.address ∧
      p.address + p.size ≤ g.base + g.size := by
  have htiled := hg.tiled
  have hp := hg.tiled.bounds.2 p (by simp [hsplit])
  rw [hsplit, tiles_append, Tiles] at htiled
  obtain ⟨hfront, haddress, hrest⟩ := htiled
  refine ⟨fun q hq => ?_, fun q hq => ?_, hp⟩
  · rw [haddress]
    exact (hfront.bounds.2 q hq).2
  · rw [haddress]
    exact (hrest.bounds.2 q hq).1

/-- The map of addresses by which a graph with parts is laid out again. -/
def moved (g : FlowGraph) (part : Instruction → Part) : Nat → Nat :=
  movedAddress g.range (movesFrom g.base (g.pieces.map (Piece.expand part)))

theorem moved_of_outside {a : Nat} (h : g.range.contains a = false) : g.moved part a = a := by
  rw [moved, movedAddress, if_neg (by simp [h])]

theorem moved_of_nearest {a : Nat} (h : g.base ≤ a ∧ a < g.base + g.size) {m : Move}
    (hm : nearestMove? (movesFrom g.base (g.pieces.map (Piece.expand part))) a = some m) :
    g.moved part a = m.target + (a - m.source) := by
  have hcontains : g.range.contains a = true := by
    simp [AddressRange.contains, AddressRange.stop, range, h.1, h.2]
  rw [moved, movedAddress, if_pos hcontains, hm]

/-- The sources of moves in front of an address in a piece are below the piece, and those behind
it above the address. -/
theorem LaidOut.sources_around (hg : g.LaidOut)
    (hpart : ∀ i ∈ g.instructions, ∀ j ∈ (part i).all, j.address = i.address)
    {front rest : List Piece} {p : Piece} (hsplit : g.pieces = front ++ p :: rest) {a : Nat}
    (hlt : a < p.address + p.size) :
    (∀ q ∈ front.map (Piece.expand part), ∀ s ∈ sources q, s < p.address) ∧
      ∀ q ∈ rest.map (Piece.expand part), ∀ s ∈ sources q, a < s := by
  obtain ⟨hfront, hrest, -⟩ := hg.around hsplit
  constructor
  · refine List.forall_mem_map.mpr fun q hq s hs => ?_
    have := hg.sources_bounds hpart (by simp [hsplit, hq]) s hs
    have := hfront q hq
    omega
  · refine List.forall_mem_map.mpr fun q hq s hs => ?_
    have := hg.sources_bounds hpart (by simp [hsplit, hq]) s hs
    have := hrest q hq
    omega

theorem LaidOut.moved_raw (hg : g.LaidOut)
    (hpart : ∀ i ∈ g.instructions, ∀ j ∈ (part i).all, j.address = i.address)
    {front rest : List Piece} {r : RawBlock} (hsplit : g.pieces = front ++ .raw r :: rest) {k : Nat}
    (hk : k < r.bytes.length) : g.moved part (r.address + k) =
      g.base + ((front.map (Piece.expand part)).map Piece.size).sum + k := by
  have hle : r.address ≤ r.address + k := Nat.le_add_right _ _
  have hlt : r.address + k < r.address + r.bytes.length := by omega
  obtain ⟨hfront, hrest⟩ := hg.sources_around hpart hsplit hlt
  obtain ⟨-, -, hbase, hstop⟩ := hg.around hsplit
  simp only [Piece.address, Piece.size] at hbase hstop
  have hnearest := nearestMove?_raw (a := g.base) hle hfront hrest
  rw [moved_of_nearest ⟨by omega, by omega⟩ (by
    rw [hsplit, List.map_append, List.map_cons]
    exact hnearest)]
  exact congrArg _ (Nat.add_sub_cancel_left _ _)

theorem LaidOut.moved_start (hg : g.LaidOut)
    (hpart : ∀ i ∈ g.instructions, ∀ j ∈ (part i).all, j.address = i.address)
    {front rest : List Piece} {b : Block} (hsplit : g.pieces = front ++ .code b :: rest)
    {before behind : List Instruction} {i : Instruction}
    (hb : b.instructions = before ++ i :: behind) : g.moved part i.address =
      g.base + ((front.map (Piece.expand part)).map Piece.size).sum +
        totalSize (before.flatMap fun j => (part j).all) := by
  have hmem : b ∈ g.blocks := mem_blocks.mpr (by simp [hsplit])
  have hlaid := hg.blocks b hmem
  have hi : i ∈ b.instructions := by simp [hb]
  have hin {j : Instruction} (hj : j ∈ b.instructions) : j ∈ g.instructions :=
    List.mem_flatMap.mpr ⟨b, hmem, hj⟩
  obtain ⟨hle, -⟩ := hlaid.bounds hi
  have hlt := hlaid.address_lt hi
  obtain ⟨hfront, hrest⟩ := hg.sources_around hpart hsplit hlt
  obtain ⟨-, -, hbase, hstop⟩ := hg.around hsplit
  simp only [Piece.address, Piece.size] at hbase hstop
  simp only [Block.stop] at hlt
  -- The part begins with an instruction at its address, which may be padding.
  obtain ⟨first, others, hall, -⟩ := (part i).exists_all_eq_cons
  have hfirst : first.address = i.address := hpart i (hin hi) first (by simp [hall])
  have hbefore : ∀ j ∈ before.flatMap fun j => (part j).all, j.address < first.address := by
    intro j hj
    obtain ⟨k, hk, hj⟩ := List.mem_flatMap.mp hj
    have hpairs := hlaid.pairwise_address
    rw [hb, List.pairwise_append] at hpairs
    rw [hpart k (hin (by simp [hb, hk])) j hj, hfirst]
    exact hpairs.2.2 k hk i List.mem_cons_self
  have hexpand : (b.expand part).instructions = (before.flatMap fun j => (part j).all) ++
      first :: (others ++ behind.flatMap fun j => (part j).all) := by
    rw [Block.expand, hb, List.flatMap_append, List.flatMap_cons, hall, List.cons_append]
  have hnearest := nearestMove?_code (a := g.base) hexpand
    (fun q hq s hs => hfirst ▸ Nat.lt_of_lt_of_le (hfront q hq s hs) hle) hbefore
    (fun q hq s hs => hfirst ▸ hrest q hq s hs)
  rw [hfirst] at hnearest
  rw [moved_of_nearest ⟨by omega, by omega⟩ (by
    rw [hsplit, List.map_append, List.map_cons]
    exact hnearest)]
  simp

/-! ### Placing the parts -/

/-- A part placed from `a` on. -/
def placedPart (move : Nat → Nat) (a : Nat) (p : Part) : Part :=
  ⟨placedFrom move a p.front, placed move (a + totalSize p.front) p.main,
    placedFrom move (a + totalSize p.front + p.main.size) p.behind⟩

theorem all_placedPart (move : Nat → Nat) (a : Nat) (p : Part) :
    (placedPart move a p).all = placedFrom move a p.all := by
  rw [Part.all, Part.all, placedFrom_append, placedFrom]
  rfl

/-- Each part is placed from where its instruction's address goes. -/
def placedParts (move : Nat → Nat) (part : Instruction → Part) (i : Instruction) : Part :=
  placedPart move (move i.address) (part i)

/-- Placing the instructions of a block places their parts. -/
theorem placedFrom_flatMap {a : Nat} {is : List Instruction}
    (h : ∀ before i behind, is = before ++ i :: behind →
      move i.address = a + totalSize (before.flatMap fun j => (part j).all)) :
    placedFrom move a (is.flatMap fun i => (part i).all) =
      is.flatMap fun i => (placedParts move part i).all := by
  induction is generalizing a with
  | nil => rfl
  | cons i rest ih =>
      -- The map sends the instruction just where the part is placed.
      have hi : move i.address = a := h [] i rest rfl
      rw [List.flatMap_cons, List.flatMap_cons, placedFrom_append, placedParts, all_placedPart, hi]
      congr 1
      refine ih fun before j behind hrest => ?_
      rw [h (i :: before) j behind (by rw [hrest, List.cons_append]), List.flatMap_cons,
        totalSize_append, Nat.add_assoc]

/-- Pieces in their order from some point on, laid out where the ones in front of them stop. -/
theorem LaidOut.expands (hg : g.LaidOut)
    (hpart : ∀ i ∈ g.instructions, ∀ j ∈ (part i).all, j.address = i.address)
    {front rest : List Piece} (hsplit : g.pieces = front ++ rest) :
    List.Forall₂ (Piece.Expands (g.moved part) (placedParts (g.moved part) part)) rest
      (relaidFrom (g.moved part) (g.base + ((front.map (Piece.expand part)).map Piece.size).sum)
        (rest.map (Piece.expand part))) := by
  -- `front` has been laid out already, and where it stops the next piece begins.
  induction rest generalizing front with
  | nil => exact .nil
  | cons p rest ih =>
      have hnext : g.base + (((front ++ [p]).map (Piece.expand part)).map Piece.size).sum =
          g.base + ((front.map (Piece.expand part)).map Piece.size).sum +
            (p.expand part).size := by
        simp [Nat.add_assoc]
      have hrest := ih (show g.pieces = (front ++ [p]) ++ rest by simp [hsplit])
      rw [hnext] at hrest
      cases p with
      | raw r =>
          refine .cons (.raw r _ fun k hk => ?_) hrest
          exact hg.moved_raw hpart hsplit hk
      | code b =>
          refine .cons ?_ hrest
          have hplaced : placedFrom (g.moved part) _ (b.instructions.flatMap fun i => (part i).all) =
              b.instructions.flatMap fun i => (placedParts (g.moved part) part i).all :=
            placedFrom_flatMap fun before i behind hb => hg.moved_start hpart hsplit hb
          simp only [Block.expand, hplaced]
          exact .code b _

/-- What placing makes of a part that could be placed. -/
theorem placedPart_replaces {a : Nat} {i : Instruction} {p : Part}
    (hpadding : ∀ n ∈ p.front ++ p.behind, Encode.IsNop n) (hmain : Widens i p.main)
    (hplaceable : Placeable move a p.all) :
    (∀ n ∈ (placedPart move a p).front ++ (placedPart move a p).behind, Encode.IsNop n) ∧
      i.Remade move (placedPart move a p).main ∧ (placedPart move a p).start = a := by
  obtain ⟨hfront, hrest⟩ := placeable_append.mp hplaceable
  have hbehind := hrest.2
  have hnops {a : Nat} {is : List Instruction} (his : ∀ n ∈ is, Encode.IsNop n)
      (hplace : Placeable move a is) : ∀ n ∈ placedFrom move a is, Encode.IsNop n := by
    intro n hn
    obtain ⟨m, hm, hplaces⟩ := (Outcome.exists_mem_of_forall₂ hplace.forall₂).2 n hn
    exact hplaces.isNop (his m hm)
  refine ⟨fun n hn => ?_, ?_, ?_⟩
  · rcases List.mem_append.mp hn with hn | hn
    · exact hnops (fun m hm => hpadding m (List.mem_append_left _ hm)) hfront n hn
    · exact hnops (fun m hm => hpadding m (List.mem_append_right _ hm)) hbehind n hn
  · refine remade_of_places hmain ?_
    rw [Places, placedPart, (placeInstruction_ok hrest.1).1]
    exact hrest.1
  · obtain ⟨first, others, hall, hstart⟩ := (placedPart move a p).exists_all_eq_cons
    have hcontiguous := hplaceable.contiguous
    rw [← all_placedPart, hall] at hcontiguous
    rw [← hstart, hcontiguous.1]

/-! ### Making room -/

/-- The part of an instruction that has been padded and widened. -/
def grownPart (es : List Expansion) (i : Instruction) : Part := (Part.padded es i).map widened

theorem grownPart_spec {es : List Expansion} {i : Instruction}
    (h : ∀ j ∈ (Part.padded es i).all, Widens j (widened j)) :
    (∀ n ∈ (grownPart es i).front ++ (grownPart es i).behind, Encode.IsNop n) ∧
      Widens i (grownPart es i).main ∧ (∀ j ∈ (grownPart es i).all, j.address = i.address) ∧
      ((grownPart es i).behind ≠ [] →
        ∃ e ∈ es, e.location = .after ∧ 0 < e.size ∧ e.address = i.address) := by
  have hsurrounds := Part.surrounds_padded es i
  refine ⟨fun n hn => ?_, ?_, fun j hj => ?_, fun hne => ?_⟩
  · rw [grownPart, Part.map, ← List.map_append] at hn
    obtain ⟨m, hm, rfl⟩ := List.mem_map.mp hn
    have hnop := (hsurrounds.padding m hm).1
    rwa [widened_of_isNop hnop]
  · have hmain := h i (by simp [Part.all, hsurrounds.main_eq])
    rwa [grownPart, Part.map, hsurrounds.main_eq]
  · rw [grownPart, Part.all_map] at hj
    obtain ⟨k, hk, rfl⟩ := List.mem_map.mp hj
    rw [(h k hk).address_eq, hsurrounds.address_eq k hk]
  · refine Part.exists_of_behind_padded fun hnil => hne ?_
    rw [grownPart, Part.map, hnil, List.map_nil]

/-- Every part of a graph that could be laid out again could be placed where it goes. -/
theorem LaidOut.placeable_part (hg : g.LaidOut)
    (hpart : ∀ i ∈ g.instructions, ∀ j ∈ (part i).all, j.address = i.address)
    (h : PlaceablePieces (g.moved part) g.base (g.pieces.map (Piece.expand part)))
    {i : Instruction} (hi : i ∈ g.instructions) :
    Placeable (g.moved part) (g.moved part i.address) (part i).all := by
  obtain ⟨b, hb, hi⟩ := List.mem_flatMap.mp hi
  obtain ⟨front, rest, hsplit⟩ := List.append_of_mem (mem_blocks.mp hb)
  obtain ⟨before, behind, hbsplit⟩ := List.append_of_mem hi
  rw [hsplit, List.map_append, List.map_cons, placeablePieces_append] at h
  have hblock := h.2.1
  rw [Block.expand, hbsplit, List.flatMap_append, List.flatMap_cons, placeable_append,
    placeable_append] at hblock
  rw [hg.moved_start hpart hsplit hbsplit]
  exact hblock.2.1

theorem LaidOut.bloats (hg : g.LaidOut) {es : List Expansion} {g' : FlowGraph}
    (h : (do widen; relayout : EStateM EncodeError FlowGraph Unit).run (g.pad es) = .ok () g') :
    ∃ move part, g.Bloats es move part g' := by
  rw [hg.pad_eq, EStateM.run_bind] at h
  split at h
  · rename_i grown hwiden
    obtain ⟨rfl, hwidens⟩ := widen_ok hwiden
    obtain ⟨hplaceable, rfl⟩ := relayout_ok h
    have hspec {i : Instruction} (hi : i ∈ g.instructions) := grownPart_spec (hwidens i hi)
    have hanchored : ∀ i ∈ g.instructions, ∀ j ∈ (grownPart es i).all, j.address = i.address :=
      fun i hi => (hspec hi).2.2.1
    refine ⟨g.moved (grownPart es), placedParts (g.moved (grownPart es)) (grownPart es), rfl,
      hplaceable.tiles.1, hplaceable.contiguous, ?_, fun i hi => ?_, fun i hi hne => ?_,
      fun a ha => ?_⟩
    · exact hg.expands hanchored (List.nil_append g.pieces).symm
    · obtain ⟨hpadding, hmain, -⟩ := hspec hi
      obtain ⟨hpadding, hmain, hstart⟩ := placedPart_replaces hpadding hmain
        (hg.placeable_part hanchored hplaceable hi)
      exact ⟨hpadding, hmain, hstart⟩
    · refine (hspec hi).2.2.2 fun hnil => hne ?_
      rw [placedParts, placedPart, hnil, placedFrom]
    · exact moved_of_outside ha
  · cases h

variable {es : List Expansion} {g' : FlowGraph}

/-- Placed parts are not empty, and neither is any instruction of them. -/
theorem Bloats.size_pos (h : g.Bloats es move part g') {i : Instruction} (hi : i ∈ g.instructions)
    (hpos : 0 < i.size) : ∀ j ∈ (part i).all, 0 < j.size := by
  have hpart := h.parts i hi
  intro j hj
  rcases List.mem_append.mp hj with hj | hj
  · exact (hpart.padding j (List.mem_append_left _ hj)).size_pos
  · rcases List.mem_cons.mp hj with rfl | hj
    · obtain ⟨k, hk, hplaces⟩ := hpart.main.placed
      rw [hplaces.size_eq]
      exact hk.size_pos hpos
    · exact (hpart.padding j (List.mem_append_right _ hj)).size_pos

/-- A graph with room made in it is laid out. -/
theorem Bloats.laidOut (hg : g.LaidOut) (h : g.Bloats es move part g') : g'.LaidOut := by
  have hpieces := (Outcome.exists_mem_of_forall₂ h.pieces).2
  refine ⟨h.tiled, fun c hc => ⟨?_, h.contiguous c hc, ?_⟩, fun s hs => ?_⟩
  · obtain ⟨p, hp, hexpands⟩ := hpieces _ (mem_blocks.mp hc)
    cases hexpands with
    | code b a =>
        obtain ⟨i, rest, hi⟩ := List.exists_cons_of_ne_nil (hg.blocks b (mem_blocks.mpr hp)).nonempty
        simp [Block.expand, hi, Part.all]
  · obtain ⟨p, hp, hexpands⟩ := hpieces _ (mem_blocks.mp hc)
    cases hexpands with
    | code b a =>
        have hb := mem_blocks.mpr hp
        intro j hj
        obtain ⟨i, hi, hj⟩ := List.mem_flatMap.mp hj
        exact h.size_pos (List.mem_flatMap.mpr ⟨b, hb, hi⟩) ((hg.blocks b hb).size_pos i hi) j hj
  · obtain ⟨p, hp, hexpands⟩ := hpieces _ (mem_rawBlocks.mp hs)
    cases hexpands with
    | raw r a => exact hg.rawBlocks r (mem_rawBlocks.mpr hp)

/-- The blocks keep their numbers. -/
theorem forall₂_blocks {ps qs : List Piece} (h : List.Forall₂ (Piece.Expands move part) ps qs) :
    List.Forall₂ (fun b c => ∃ a, c = { b.expand part with address := a })
      (ps.filterMap Piece.block?) (qs.filterMap Piece.block?) := by
  induction h with
  | nil => exact .nil
  | cons hexpands _ ih =>
      cases hexpands with
      | raw r a => exact ih
      | code b a => exact .cons ⟨a, rfl⟩ ih

end FlowGraph

namespace Function

/-- What a successful bloat of a laid out function has made of it. -/
theorem bloat_ok {f f' : Function} {es : List Expansion} {g : FlowGraph} {size : Nat}
    (hgraph : f.graph = some g) (hg : g.LaidOut) (h : (bloat es).run f = .ok size f') :
    ∃ g' move part, f' = { f with graph := some g' } ∧ size = g'.size ∧
      g.Bloats (Expansion.ordered es) move part g' := by
  rw [bloat, EStateM.run_bind, EStateM.run_get] at h
  simp only [hgraph] at h
  cases hrun : (do FlowGraph.widen; FlowGraph.relayout : EStateM EncodeError FlowGraph Unit).run
      (g.pad (Expansion.ordered es)) with
  | error e g' =>
      rw [hrun] at h
      cases h
  | ok u g' =>
      rw [hrun] at h
      cases h
      obtain ⟨move, part, hbloats⟩ := hg.bloats hrun
      exact ⟨g', move, part, rfl, rfl, hbloats⟩

end Function

end BinTrace
