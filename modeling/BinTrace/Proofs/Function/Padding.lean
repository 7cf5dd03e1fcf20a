import BinTrace.Function.Bloat
import BinTrace.Proofs.Flow.LaidOut
import BinTrace.Proofs.Patch.SiteBytes

/-!
Padding a graph and widening its branches. Both change each instruction on its own: a padded graph
has in the place of every instruction a part, which is the instruction with no-ops in front of it
and behind it. Padding carries the address of its instruction, so that until the graph is laid out
again a part is found by one address.
-/

namespace BinTrace

namespace Encode

/-- A no-op as the encoder makes them, at some address. -/
def IsNop (i : Instruction) : Prop :=
  ∃ n, 1 ≤ n ∧ n ≤ maxNop ∧ i = { nopOfSize n with address := i.address }

variable {i : Instruction}

theorem IsNop.with_address (h : IsNop i) (a : Nat) : IsNop { i with address := a } := by
  obtain ⟨n, hpos, hle, heq⟩ := h
  exact ⟨n, hpos, hle, by rw [heq]⟩

theorem IsNop.size_pos (h : IsNop i) : 0 < i.size := by
  obtain ⟨n, hpos, hle, heq⟩ := h
  have hsize : i.size = n := by
    rw [heq]
    exact size_nopOfSize hpos hle
  omega

theorem IsNop.relativeTarget?_eq (h : IsNop i) : i.relativeTarget? = none := by
  obtain ⟨n, -, -, heq⟩ := h
  rw [heq]
  rfl

theorem IsNop.isControl_eq (h : IsNop i) : i.isControl = false := by
  obtain ⟨n, -, -, heq⟩ := h
  rw [heq]
  rfl

end Encode

/-- An instruction with the padding around it. -/
structure Part where
  front : List Instruction
  main : Instruction
  behind : List Instruction

namespace Part

def of (i : Instruction) : Part := ⟨[], i, []⟩

def all (p : Part) : List Instruction := p.front ++ p.main :: p.behind

/-- Where the part begins: at its padding, or at the instruction if none is in front of it. -/
def start (p : Part) : Nat := (p.front.head?.getD p.main).address

def map (f : Instruction → Instruction) (p : Part) : Part :=
  ⟨p.front.map f, f p.main, p.behind.map f⟩

@[simp] theorem all_map (f : Instruction → Instruction) (p : Part) :
    (p.map f).all = p.all.map f := by
  simp [all, map]

/-- A part begins with some instruction at its start. -/
theorem exists_all_eq_cons (p : Part) : ∃ i rest, p.all = i :: rest ∧ i.address = p.start := by
  obtain ⟨front, main, behind⟩ := p
  cases front with
  | nil => exact ⟨main, behind, rfl, rfl⟩
  | cons n rest => exact ⟨n, rest ++ main :: behind, rfl, rfl⟩

/-- Puts padding into the part of the instruction for which it is asked: behind the first
instruction at the address, which may be padding, or in front of it. -/
def insert (e : Expansion) (p : Part) : Part :=
  if e.address ≠ p.main.address then p
  else if e.location ≠ .after then { p with front := e.padding ++ p.front }
  else match p.front with
    | [] => { p with behind := e.padding ++ p.behind }
    | n :: rest => { p with front := n :: (e.padding ++ rest) }

/-- The part of an instruction after padding. -/
def padded (es : List Expansion) (i : Instruction) : Part := es.foldr insert (of i)

/-- The part is the instruction with no-ops at its address. -/
structure Surrounds (i : Instruction) (p : Part) : Prop where
  main_eq : p.main = i
  padding : ∀ n ∈ p.front ++ p.behind, Encode.IsNop n ∧ n.address = i.address

variable {i : Instruction} {p : Part}

theorem Surrounds.address_eq (h : p.Surrounds i) : ∀ j ∈ p.all, j.address = i.address := by
  intro j hj
  rcases List.mem_append.mp hj with hj | hj
  · exact (h.padding j (List.mem_append_left _ hj)).2
  · rcases List.mem_cons.mp hj with rfl | hj
    · rw [h.main_eq]
    · exact (h.padding j (List.mem_append_right _ hj)).2

theorem isNop_of_mem_padding {e : Expansion} {n : Instruction} (h : n ∈ e.padding) :
    Encode.IsNop n ∧ n.address = e.address := by
  obtain ⟨m, hm, rfl⟩ := List.mem_map.mp h
  obtain ⟨size, hpos, hle, rfl⟩ := Encode.mem_nops hm
  exact ⟨⟨size, hpos, hle, rfl⟩, rfl⟩

theorem Surrounds.insert (h : p.Surrounds i) (e : Expansion) : (p.insert e).Surrounds i := by
  unfold Part.insert
  split
  · exact h
  · rename_i haddress
    rw [ne_eq, Decidable.not_not, h.main_eq] at haddress
    have hpadding : ∀ n ∈ e.padding, Encode.IsNop n ∧ n.address = i.address := fun n hn =>
      haddress ▸ isNop_of_mem_padding hn
    -- No-ops are added to those in front or behind, wherever among them.
    have hadd {front behind : List Instruction} (hsub : ∀ n ∈ front ++ behind,
        n ∈ e.padding ∨ n ∈ p.front ++ p.behind) : Surrounds i ⟨front, p.main, behind⟩ :=
      ⟨h.main_eq, fun n hn => (hsub n hn).elim (hpadding n) (h.padding n)⟩
    split
    · refine hadd fun n hn => ?_
      rwa [List.append_assoc, List.mem_append] at hn
    · split
      · rename_i hfront
        exact hadd fun n hn => by simpa [hfront] using hn
      · rename_i m rest hfront
        refine hadd fun n hn => ?_
        simp only [hfront, List.cons_append, List.append_assoc, List.mem_cons, List.mem_append]
          at hn ⊢
        tauto

theorem surrounds_padded (es : List Expansion) (i : Instruction) : (padded es i).Surrounds i := by
  induction es with
  | nil => exact ⟨rfl, by simp [padded, of]⟩
  | cons e rest ih => exact ih.insert e

theorem insert_of_ne {e : Expansion} (h : p.main.address ≠ e.address) : p.insert e = p := by
  rw [insert, if_pos h.symm]

/-- Padding stands behind an instruction only if room was asked for behind it. -/
theorem exists_of_behind_padded {es : List Expansion} (h : (padded es i).behind ≠ []) :
    ∃ e ∈ es, e.location = .after ∧ 0 < e.size ∧ e.address = i.address := by
  induction es with
  | nil => exact absurd rfl h
  | cons e rest ih =>
      by_cases hrest : (padded rest i).behind = []
      · refine ⟨e, List.mem_cons_self, ?_⟩
        have hmain := (surrounds_padded rest i).main_eq
        change (insert e (padded rest i)).behind ≠ [] at h
        unfold insert at h
        split at h
        · exact absurd hrest h
        · rename_i haddress
          rw [ne_eq, Decidable.not_not, hmain] at haddress
          split at h
          · exact absurd hrest h
          · rename_i hafter
            refine ⟨Decidable.not_not.mp hafter, Nat.pos_of_ne_zero fun hzero => ?_, haddress⟩
            split at h
            · simp [hrest, Expansion.padding, hzero, Encode.nops] at h
            · exact absurd hrest h
      · obtain ⟨k, hk, hasked⟩ := ih hrest
        exact ⟨k, List.mem_cons_of_mem _ hk, hasked⟩

end Part

namespace Expansion

/-- Padding put in at the first instruction that is at the address. -/
def insertAt (e : Expansion) : List Instruction → List Instruction
  | [] => []
  | i :: rest =>
    if i.address = e.address then
      if e.location = .after then i :: (e.padding ++ rest) else e.padding ++ i :: rest
    else i :: insertAt e rest

theorem insertAt_of_findIdx?_none {e : Expansion} {is : List Instruction}
    (h : is.findIdx? (fun i => i.address = e.address) = none) : e.insertAt is = is := by
  induction is with
  | nil => rfl
  | cons i rest ih =>
      rw [List.findIdx?_eq_none_iff] at h
      have hi : i.address ≠ e.address := by simpa using h i List.mem_cons_self
      have hrest := List.findIdx?_eq_none_iff.mpr fun j hj => h j (List.mem_cons_of_mem _ hj)
      rw [insertAt, if_neg hi, ih hrest]

theorem insertAt_of_findIdx?_some {e : Expansion} {is : List Instruction} {index position : Nat}
    (h : is.findIdx? (fun i => i.address = e.address) = some index)
    (hposition : position = if e.location = .after then index + 1 else index) :
    e.insertAt is = is.take position ++ e.padding ++ is.drop position := by
  subst hposition
  induction is generalizing index with
  | nil => cases h
  | cons i rest ih =>
      rw [List.findIdx?_cons] at h
      by_cases hi : i.address = e.address
      · obtain rfl : 0 = index := by simpa [hi] using h
        by_cases hafter : e.location = .after <;> simp [insertAt, hi, hafter]
      · obtain ⟨index, hrest, rfl⟩ : ∃ k, rest.findIdx? (fun i => i.address = e.address) = some k ∧
            k + 1 = index := by simpa [hi] using h
        rw [insertAt, if_neg hi, ih hrest]
        by_cases hafter : e.location = .after <;> simp [hafter]

theorem insertInto_eq (e : Expansion) (b : Block) :
    e.insertInto b = { b with instructions := e.insertAt b.instructions } := by
  unfold insertInto
  cases hindex : b.indexAt? e.address with
  | none => rw [insertAt_of_findIdx?_none hindex]
  | some index => rw [insertAt_of_findIdx?_some hindex rfl]

theorem insertAt_append_of_ne {e : Expansion} {is : List Instruction}
    (h : ∀ i ∈ is, i.address ≠ e.address) (rest : List Instruction) :
    e.insertAt (is ++ rest) = is ++ e.insertAt rest := by
  induction is with
  | nil => rfl
  | cons i is ih =>
      rw [List.cons_append, insertAt, if_neg (h i List.mem_cons_self),
        ih fun j hj => h j (List.mem_cons_of_mem _ hj), List.cons_append]

/-- Padding at the address of a part goes into it. -/
theorem insertAt_part {e : Expansion} {i : Instruction} {p : Part} (hp : p.Surrounds i)
    (he : i.address = e.address) (rest : List Instruction) :
    e.insertAt (p.all ++ rest) = (p.insert e).all ++ rest := by
  have haddress := hp.address_eq
  obtain ⟨front, main, behind⟩ := p
  have hmain : main.address = e.address := (haddress main (by simp [Part.all])).trans he
  rw [Part.insert, if_neg (not_not_intro hmain.symm)]
  cases front with
  | nil => by_cases hafter : e.location = .after <;> simp [Part.all, insertAt, hmain, hafter]
  | cons n front =>
      have hn : n.address = e.address := (haddress n (by simp [Part.all])).trans he
      by_cases hafter : e.location = .after <;> simp [Part.all, insertAt, hn, hafter]

/-- Of parts at different addresses padding goes into the one at its own. -/
theorem insertAt_flatMap {e : Expansion} {is : List Instruction} {part : Instruction → Part}
    (hne : is.Pairwise fun i j => i.address ≠ j.address) (hpart : ∀ i, (part i).Surrounds i) :
    e.insertAt (is.flatMap fun i => (part i).all) =
      is.flatMap fun i => ((part i).insert e).all := by
  have hskip {is : List Instruction} (h : ∀ i ∈ is, i.address ≠ e.address) :
      is.flatMap (fun i => ((part i).insert e).all) = is.flatMap fun i => (part i).all := by
    refine List.flatMap_congr fun i hi => ?_
    rw [Part.insert_of_ne]
    rw [(hpart i).main_eq]
    exact h i hi
  induction is with
  | nil => rfl
  | cons i rest ih =>
      obtain ⟨hi, hrest⟩ := List.pairwise_cons.mp hne
      rw [List.flatMap_cons, List.flatMap_cons]
      by_cases he : i.address = e.address
      · rw [insertAt_part (hpart i) he, hskip fun j hj => he ▸ (hi j hj).symm]
      · rw [insertAt_append_of_ne fun j hj => (hpart i).address_eq j hj ▸ he, ih hrest,
          Part.insert_of_ne (by rwa [(hpart i).main_eq])]

end Expansion

/-- The block with a part in the place of each of its instructions. -/
def Block.expand (part : Instruction → Part) (b : Block) : Block :=
  { b with instructions := b.instructions.flatMap fun i => (part i).all }

def Piece.expand (part : Instruction → Part) : Piece → Piece
  | .code b => .code (b.expand part)
  | .raw r => .raw r

theorem Block.expand_of (b : Block) : b.expand Part.of = b := by
  have hall : (fun i => (Part.of i).all) = fun i => [i] := rfl
  rw [expand, hall, List.flatMap_singleton']

theorem Piece.expand_of (p : Piece) : p.expand Part.of = p := by
  cases p with
  | code b => rw [expand, Block.expand_of]
  | raw r => rfl

namespace FlowGraph

variable {g : FlowGraph}

/-- A change of the numbered block that amounts to other parts for all blocks. -/
theorem modifyPieces_expand {f : Block → Block} {part part' : Instruction → Part} {n : Nat}
    {ps : List Piece} (h : ∀ m b, (ps.filterMap Piece.block?)[m]? = some b →
      (if m = n then f (b.expand part) else b.expand part) = b.expand part') :
    modifyPieces f n (ps.map (Piece.expand part)) = ps.map (Piece.expand part') := by
  induction ps generalizing n with
  | nil => cases n <;> rfl
  | cons p rest ih =>
      cases p with
      | raw r =>
          have hrest := ih (n := n) fun m b hb => h m b (by
            rwa [List.filterMap_cons_none (Piece.block?_raw r)])
          cases n <;> simp only [List.map_cons, Piece.expand, modifyPieces, hrest]
      | code b =>
          have hb := h 0 b (by simp)
          cases n with
          | zero =>
              rw [if_pos rfl] at hb
              have hrest : rest.map (Piece.expand part) = rest.map (Piece.expand part') := by
                refine List.map_congr_left fun q hq => ?_
                cases q with
                | raw r => rfl
                | code c =>
                    obtain ⟨m, hm⟩ := List.getElem?_of_mem
                      (List.mem_filterMap.mpr ⟨_, hq, Piece.block?_code c⟩)
                    have hc := h (m + 1) c (by simpa using hm)
                    rw [if_neg (Nat.succ_ne_zero m)] at hc
                    rw [Piece.expand, Piece.expand, hc]
              simp only [List.map_cons, Piece.expand, modifyPieces, hb, hrest]
          | succ n =>
              rw [if_neg (Nat.succ_ne_zero n).symm] at hb
              have hrest := ih (n := n) fun m c hc => by
                have hc := h (m + 1) c (by simpa using hc)
                simpa using hc
              simp only [List.map_cons, Piece.expand, modifyPieces, hb, hrest]

/-- Padding at an address of a graph with parts changes the part of the instruction there. -/
theorem LaidOut.expand_insert (hg : g.LaidOut) {e : Expansion} {part : Instruction → Part}
    (hpart : ∀ i, (part i).Surrounds i) {n : Nat} {b : Block} (hb : g.block? n = some b) :
    (if g.blockContaining? e.address = some n then e.insertInto (b.expand part)
      else b.expand part) = b.expand fun i => (part i).insert e := by
  split
  · rw [Expansion.insertInto_eq]
    have hne : b.instructions.Pairwise fun i j => i.address ≠ j.address :=
      (hg.blocks b (List.mem_of_getElem? hb)).pairwise_address.imp Nat.ne_of_lt
    simp only [Block.expand, Expansion.insertAt_flatMap hne hpart]
  · rename_i hother
    have hskip : b.instructions.flatMap (fun i => (part i).all) =
        b.instructions.flatMap fun i => ((part i).insert e).all := by
      refine List.flatMap_congr fun i hi => ?_
      rw [Part.insert_of_ne]
      rw [(hpart i).main_eq]
      intro heq
      exact hother (heq ▸ hg.blockContaining?_address hb hi)
    simp only [Block.expand, hskip]

theorem LaidOut.pad_eq (hg : g.LaidOut) (es : List Expansion) :
    g.pad es = { g with pieces := g.pieces.map (Piece.expand (Part.padded es)) } := by
  induction es with
  | nil =>
      have hsame : g.pieces.map (Piece.expand (Part.padded [])) = g.pieces :=
        (List.map_congr_left fun p _ => Piece.expand_of p).trans (List.map_id _)
      rw [hsame]
      rfl
  | cons e rest ih =>
      -- Padding folds from the right: the rest has been put in before `e` is.
      have hstep {n : Nat} {b : Block} := hg.expand_insert (e := e) (Part.surrounds_padded rest)
        (n := n) (b := b)
      cases hn : g.blockContaining? e.address with
      | none =>
          have hpad : g.pad (e :: rest) = g.pad rest := by simp [pad, hn]
          rw [hpad, ih]
          congr 1
          refine List.map_congr_left fun p hp => ?_
          cases p with
          | raw r => rfl
          | code b =>
              obtain ⟨m, hm⟩ := List.getElem?_of_mem (mem_blocks.mpr hp)
              have hb := hstep hm
              rw [if_neg (by simp [hn])] at hb
              exact congrArg Piece.code hb
      | some n =>
          have hpad : g.pad (e :: rest) = (g.pad rest).modifyBlock n e.insertInto := by
            simp [pad, hn]
          rw [hpad, ih, modifyBlock]
          congr 1
          refine modifyPieces_expand fun m b hb => ?_
          have hb := hstep hb
          rw [hn] at hb
          rw [← show (b.expand fun i => (Part.padded rest i).insert e) =
            b.expand (Part.padded (e :: rest)) from rfl, ← hb]
          simp only [Option.some.injEq, eq_comm]

/-! ### Widening -/

/-- An instruction as it is after the attempt to widen it. -/
def widened (i : Instruction) : Instruction :=
  if needsWidening i then
    match Instruction.widenTarget.run i with
    | .ok _ j => j
    | .error _ j => j
  else i

/-- The second instruction is the first one, with a wide displacement if it is a short branch. -/
def Widens (i j : Instruction) : Prop :=
  if needsWidening i then Instruction.widenTarget.run i = .ok () j else j = i

theorem widenAll_ok {is js : List Instruction} (h : widenAll is = (js, none)) :
    js = is.map widened ∧ ∀ i ∈ is, Widens i (widened i) := by
  induction is generalizing js with
  | nil =>
      cases h
      exact ⟨rfl, by simp⟩
  | cons i rest ih =>
      rw [widenAll] at h
      cases hrest : widenAll rest with
      | mk ks error? =>
          rw [hrest] at h
          by_cases hi : needsWidening i = true
          · rw [if_pos hi] at h
            cases hrun : Instruction.widenTarget.run i with
            | error e j =>
                rw [hrun] at h
                cases h
            | ok u j =>
                rw [hrun] at h
                cases h
                obtain ⟨rfl, hall⟩ := ih hrest
                have hj : widened i = j := by rw [widened, if_pos hi, hrun]
                exact ⟨by rw [List.map_cons, hj],
                  List.forall_mem_cons.mpr ⟨by rw [Widens, if_pos hi, hj, hrun], hall⟩⟩
          · rw [if_neg hi] at h
            cases h
            obtain ⟨rfl, hall⟩ := ih hrest
            have hj : widened i = i := by rw [widened, if_neg hi]
            exact ⟨by rw [List.map_cons, hj],
              List.forall_mem_cons.mpr ⟨by rw [Widens, if_neg hi, hj], hall⟩⟩

theorem widenPieces_ok {part : Instruction → Part} {ps qs : List Piece}
    (h : widenPieces (ps.map (Piece.expand part)) = (qs, none)) :
    qs = ps.map (Piece.expand fun i => (part i).map widened) ∧
      ∀ b ∈ ps.filterMap Piece.block?, ∀ i ∈ b.instructions, ∀ j ∈ (part i).all,
        Widens j (widened j) := by
  induction ps generalizing qs with
  | nil =>
      cases h
      exact ⟨rfl, by simp⟩
  | cons p rest ih =>
      rw [List.map_cons] at h
      cases hrest : widenPieces (rest.map (Piece.expand part)) with
      | mk ks error? =>
          cases p with
          | raw r =>
              rw [Piece.expand, widenPieces, hrest] at h
              cases h
              obtain ⟨rfl, hall⟩ := ih hrest
              exact ⟨rfl, by simpa using hall⟩
          | code b =>
              rw [Piece.expand, widenPieces, hrest] at h
              cases hhere : widenAll (b.expand part).instructions with
              | mk js here? =>
                  rw [hhere] at h
                  cases here? with
                  | some e => cases h
                  | none =>
                      cases h
                      obtain ⟨rfl, hall⟩ := ih hrest
                      obtain ⟨rfl, hb⟩ := widenAll_ok hhere
                      refine ⟨?_, ?_⟩
                      · simp only [List.map_cons, Piece.expand, Block.expand, Part.all_map,
                          List.map_flatMap]
                      · rw [List.filterMap_cons_some (Piece.block?_code b)]
                        refine List.forall_mem_cons.mpr ⟨fun i hi j hj => hb j ?_, hall⟩
                        exact List.mem_flatMap.mpr ⟨i, hi, hj⟩

theorem widen_ok {part : Instruction → Part} {g' : FlowGraph}
    (h : widen.run { g with pieces := g.pieces.map (Piece.expand part) } = .ok () g') :
    g' = { g with pieces := g.pieces.map (Piece.expand fun i => (part i).map widened) } ∧
      ∀ i ∈ g.instructions, ∀ j ∈ (part i).all, Widens j (widened j) := by
  simp only [widen, EStateM.run_bind, EStateM.run_get, EStateM.run_set] at h
  cases hpieces : widenPieces (g.pieces.map (Piece.expand part)) with
  | mk qs error? =>
      rw [hpieces] at h
      cases error? with
      | some e => cases h
      | none =>
          cases h
          obtain ⟨rfl, hall⟩ := widenPieces_ok hpieces
          refine ⟨rfl, fun i hi => ?_⟩
          obtain ⟨b, hb, hi⟩ := List.mem_flatMap.mp hi
          exact hall b hb i hi

end FlowGraph

end BinTrace
