import Mathlib
import BinTrace.Proofs.Reuse.WeightMap
import BinTrace.Proofs.Splay.Operations

/-!
A tree in an array is a finite map: it answers every call as a weighted tree of the same entries
does, and that one answers as the map. No loop runs on for ever and no place is missed, for every
call gives a result as long as the weights can be added up.
-/

namespace BinTrace

variable {α : Type}

open WeightTree

namespace SplayTree

/-- The answer of a tree, and the tree afterwards. -/
def call (t : SplayTree α) : WeightCall α → Option (WeightAnswer α × SplayTree α)
  | .insert key value weight => do return (.done, ← t.insert key value weight)
  | .remove key => do
    let (item, t) ← t.remove key
    return (.found item, t)
  | .adjust key delta => do
    let (weight, t) ← t.adjust key delta
    return (.number weight, t)
  | .weight key => do
    let (weight, t) ← t.weight? key
    return (.number weight, t)
  | .weightAbove key => do
    let (weight, t) ← t.weightAbove key
    return (.number (some weight), t)
  | .ceiling key => do return (.number (← t.ceiling? key), t)
  | .predecessor key => do return (.number (← t.predecessor? key), t)
  | .successor key => do return (.number (← t.successor? key), t)
  | .minKey => do return (.number (← t.minKey?), t)
  | .clear => some (.done, {})

/-- The answers to some calls, and the tree that they leave. -/
def run (t : SplayTree α) : List (WeightCall α) → Option (List (WeightAnswer α) × SplayTree α)
  | [] => some ([], t)
  | c :: rest => do
    let (answer, t) ← t.call c
    let (answers, t) ← t.run rest
    return (answer :: answers, t)

/-- The tree lists the map in the order of its keys. -/
structure Lists (t : SplayTree α) (m : WeightMap α) : Prop where
  entries : ∃ es, t.entries = some es ∧ Increasing es ∧
    ∀ e, e ∈ es ↔ m.lookup e.key = some e.item
  size : t.size = m.keys.card
  totalWeight : t.totalWeight = some m.total

variable {s : SplayTree α} {t : WeightTree α} {m : WeightMap α}

/-- One call answers as that of a weighted tree with the same entries. -/
theorem Shows.call (h : s.Shows t.entries) (ht : t.Valid) (c : WeightCall α)
    (hmax : weightOf (t.call c).2.entries ≤ maxWeight) :
    ∃ s', s.call c = some ((t.call c).1, s') ∧ s'.Shows (t.call c).2.entries := by
  have hinc := ht.increasing
  cases c with
  | insert k value weight =>
    have hentries : (t.call (.insert k value weight)).2.entries = _ :=
      (insert_spec ht k value weight).1
    rw [hentries] at hmax ⊢
    obtain ⟨s', hinsert, hshows⟩ := h.insert hinc k value weight hmax
    exact ⟨s', by rw [SplayTree.call, hinsert]; rfl, hshows⟩
  | remove k =>
    obtain ⟨hfound, hentries, -⟩ := remove_spec ht k
    obtain ⟨s', hremove, hshows⟩ := h.remove hinc k
    refine ⟨s', ?_, ?_⟩
    · rw [SplayTree.call, hremove, ← hfound]
      rfl
    · exact hentries ▸ hshows
  | adjust k delta =>
    obtain ⟨hfound, hentries, -⟩ := modify_spec ht k
      (f := fun e => { e with weight := min maxWeight (e.weight + delta).toNat }) fun _ => rfl
    have hanswer : (t.call (.adjust k delta)).1 =
        .number (((item? k t.entries).map fun e =>
          { e with weight := min maxWeight (e.weight + delta).toNat }).map WeightEntry.weight) := by
      rw [← hfound]
      rfl
    have hafter : (t.call (.adjust k delta)).2.entries = _ := hentries
    rw [hafter] at hmax ⊢
    obtain ⟨s', hadjust, hshows⟩ := h.adjust hinc k delta rfl hmax
    refine ⟨s', ?_, hshows⟩
    rw [SplayTree.call, hadjust, hanswer]
    rfl
  | weight k =>
    obtain ⟨s', hweight, hshows⟩ := h.weight? hinc k
    refine ⟨s', ?_, hshows⟩
    rw [SplayTree.call, hweight, WeightTree.call, WeightTree.weight?, find?_eq hinc]
    rfl
  | weightAbove k =>
    obtain ⟨s', hweight, hshows⟩ := h.weightAbove hinc k
    refine ⟨s', ?_, hshows⟩
    rw [SplayTree.call, hweight, WeightTree.call, weightAbove_eq ht]
    rfl
  | ceiling k =>
    refine ⟨s, ?_, h⟩
    rw [SplayTree.call, h.ceiling? hinc, WeightTree.call, ceiling?_eq hinc]
    rfl
  | predecessor k =>
    refine ⟨s, ?_, h⟩
    rw [SplayTree.call, h.predecessor? hinc, WeightTree.call, predecessor?_eq hinc]
    rfl
  | successor k =>
    refine ⟨s, ?_, h⟩
    rw [SplayTree.call, h.successor? hinc, WeightTree.call, successor?_eq hinc]
    rfl
  | minKey =>
    refine ⟨s, ?_, h⟩
    rw [SplayTree.call, h.minKey?, WeightTree.call, minKey?_eq]
    rfl
  | clear => exact ⟨{}, rfl, shows_empty⟩

/-- A run answers as that of a weighted tree with the same entries, as long as the weights in that
tree stay below 2^64 in all. -/
theorem Shows.run (h : s.Shows t.entries) (ht : t.Valid) (calls : List (WeightCall α))
    (hbound : ∀ front, front <+: calls →
      (WeightCall.run WeightTree.call t front).2.totalWeight < 2 ^ 64) :
    ∃ s', s.run calls = some ((WeightCall.run WeightTree.call t calls).1, s') ∧
      s'.Shows (WeightCall.run WeightTree.call t calls).2.entries := by
  induction calls generalizing s t with
  | nil => exact ⟨s, rfl, h⟩
  | cons c rest ih =>
    have hvalid := ht.call c
    have hfirst : (t.call c).2.totalWeight < 2 ^ 64 := hbound [c] (by simp)
    rw [hvalid.weighed.totalWeight_eq] at hfirst
    obtain ⟨s₁, hcall, hshows₁⟩ := h.call ht c (Nat.le_sub_one_of_lt hfirst)
    obtain ⟨s₂, hrun, hshows₂⟩ := ih hshows₁ hvalid fun front hfront =>
      hbound (c :: front) (List.cons_prefix_cons.mpr ⟨rfl, hfront⟩)
    refine ⟨s₂, ?_, hshows₂⟩
    simp [SplayTree.run, hcall, hrun, WeightCall.run]

theorem Shows.lists (h : s.Shows t.entries) (hrep : t.Represents m) : s.Lists m where
  entries := ⟨t.entries, h.entries, hrep.valid.increasing, hrep.mem_iff⟩
  size := h.size.trans hrep.card_eq.symm
  totalWeight := h.totalWeight.trans (congrArg some hrep.total_eq.symm)

/-- Whatever is asked of an empty tree, every call ends with the answer of a finite map, as long as
the weights in the map stay below 2^64 in all, and in the end the tree lists the map. -/
theorem run_eq_map (calls : List (WeightCall α))
    (hbound : ∀ front, front <+: calls →
      (WeightCall.run WeightMap.call (∅ : WeightMap α) front).2.total < 2 ^ 64) :
    ∃ t, ({} : SplayTree α).run calls =
        some ((WeightCall.run WeightMap.call (∅ : WeightMap α) calls).1, t) ∧
      t.Lists (WeightCall.run WeightMap.call (∅ : WeightMap α) calls).2 := by
  have hrep (front : List (WeightCall α)) (hfront : front <+: calls) :=
    Represents.leaf.run front fun first hfirst => hbound first (hfirst.trans hfront)
  obtain ⟨hanswers, hlast⟩ := hrep calls (List.prefix_refl calls)
  obtain ⟨t, hrun, hshows⟩ := Shows.run shows_empty .leaf calls fun front hfront => by
    rw [(hrep front hfront).2.valid.weighed.totalWeight_eq, ← (hrep front hfront).2.total_eq]
    exact hbound front hfront
  exact ⟨t, hanswers ▸ hrun, hshows.lists hlast⟩

/-! A key that is inserted twice, changes that stop at zero and at keys that are not there, a place
that is used again, and questions about keys that are there and that are not. -/

namespace TwoInsertions

def calls : List (WeightCall Char) :=
  [.insert 20 'a' 5, .insert 30 'b' 7, .insert 10 'c' 1, .insert 20 'd' 2, .weight 20,
    .weightAbove 20, .weightAbove 15, .adjust 10 (-4), .adjust 11 3, .ceiling 21, .predecessor 20,
    .successor 30, .remove 20, .remove 20, .insert 15 'e' 3, .minKey]

end TwoInsertions

theorem run_twoInsertions :
    ∃ t, ({} : SplayTree Char).run TwoInsertions.calls =
      some ([.done, .done, .done, .done, .number (some 7), .number (some 7), .number (some 14),
        .number (some 0), .number none, .number (some 30), .number (some 10), .number none,
        .found (some (7, 'd')), .found none, .done, .number (some 10)], t) ∧
    t.Lists (WeightCall.run WeightMap.call (∅ : WeightMap Char) TwoInsertions.calls).2 := by
  have hbound : ∀ front ∈ TwoInsertions.calls.inits,
      (WeightCall.run WeightMap.call (∅ : WeightMap Char) front).2.total < 2 ^ 64 := by
    decide +kernel
  have hanswers : (WeightCall.run WeightMap.call (∅ : WeightMap Char) TwoInsertions.calls).1 =
      [.done, .done, .done, .done, .number (some 7), .number (some 7), .number (some 14),
        .number (some 0), .number none, .number (some 30), .number (some 10), .number none,
        .found (some (7, 'd')), .found none, .done, .number (some 10)] := by
    decide +kernel
  rw [← hanswers]
  exact run_eq_map TwoInsertions.calls fun front hfront =>
    hbound front ((List.mem_inits front _).mpr hfront)

end SplayTree

end BinTrace
