import BinTrace.Flow.Relayout
import BinTrace.Proofs.Flow.LaidOut
import BinTrace.Proofs.Instruction.Retarget

/-!
What laying out again does when it succeeds. Every instruction is placed where the ones in front of
it stop, so the result is a function of the old pieces and of the map from old to new addresses.
That map is read off a list of moves; the lemmas on `nearestMove?` say which move of the list counts
for an address.
-/

namespace BinTrace.FlowGraph

/-! ### The move that counts -/

/-- One step of the search for the nearest move. -/
def keepNearest (a : Nat) (best : Option Move) (m : Move) : Option Move :=
  if m.source ≤ a ∧ best.all fun k => k.source < m.source then some m else best

theorem nearestMove?_eq_foldl (moves : List Move) (a : Nat) :
    nearestMove? moves a = moves.foldl (keepNearest a) none := rfl

theorem keepNearest_eq {a : Nat} {best : Option Move} {m : Move} :
    keepNearest a best m = some m ∨ keepNearest a best m = best := by
  unfold keepNearest
  split
  · exact .inl rfl
  · exact .inr rfl

/-- What a search ends with was there before or has been met. -/
theorem mem_foldl_keepNearest {a : Nat} {moves : List Move} {best : Option Move} {m : Move}
    (h : moves.foldl (keepNearest a) best = some m) : best = some m ∨ m ∈ moves := by
  induction moves generalizing best with
  | nil => exact .inl h
  | cons k rest ih =>
      rcases ih h with hk | hm
      · rcases (keepNearest_eq : keepNearest a best k = some k ∨ _) with heq | heq
        · rw [heq] at hk
          cases hk
          exact .inr List.mem_cons_self
        · exact .inl (heq ▸ hk)
      · exact .inr (List.mem_cons_of_mem _ hm)

/-- A move with the greatest source so far stays the nearest one, also if others share its source. -/
theorem foldl_keepNearest_of_le {a : Nat} {moves : List Move} {m : Move}
    (h : ∀ k ∈ moves, k.source ≤ m.source ∨ a < k.source) :
    moves.foldl (keepNearest a) (some m) = some m := by
  induction moves with
  | nil => rfl
  | cons k rest ih =>
      have hk := h k List.mem_cons_self
      have hkeep : keepNearest a (some m) k = some m := by
        rw [keepNearest, if_neg]
        rw [Option.all_some, decide_eq_true_eq]
        omega
      rw [List.foldl_cons, hkeep]
      exact ih fun k hk => h k (List.mem_cons_of_mem _ hk)

/-- The nearest move is the first one of those whose source is the greatest up to the address. -/
theorem nearestMove?_append {front rest : List Move} {m : Move} {a : Nat} (hm : m.source ≤ a)
    (hfront : ∀ k ∈ front, k.source < m.source)
    (hrest : ∀ k ∈ rest, k.source ≤ m.source ∨ a < k.source) :
    nearestMove? (front ++ m :: rest) a = some m := by
  rw [nearestMove?_eq_foldl, List.foldl_append, List.foldl_cons]
  have hnew : keepNearest a (front.foldl (keepNearest a) none) m = some m := by
    rw [keepNearest, if_pos]
    refine ⟨hm, ?_⟩
    cases hbest : front.foldl (keepNearest a) none with
    | none => rfl
    | some k =>
        rcases mem_foldl_keepNearest hbest with hnone | hk
        · cases hnone
        · simpa using hfront k hk
  rw [hnew]
  exact foldl_keepNearest_of_le hrest

/-! ### The list of moves -/

theorem movesOf_append (a : Nat) (is js : List Instruction) :
    movesOf a (is ++ js) = movesOf a is ++ movesOf (a + totalSize is) js := by
  induction is generalizing a with
  | nil => rfl
  | cons i rest ih =>
      rw [List.cons_append, movesOf, movesOf, ih, totalSize_cons, Nat.add_assoc, List.cons_append]

theorem movesFrom_append (a : Nat) (ps qs : List Piece) :
    movesFrom a (ps ++ qs) = movesFrom a ps ++ movesFrom (a + (ps.map Piece.size).sum) qs := by
  induction ps generalizing a with
  | nil => rfl
  | cons p rest ih =>
      rw [List.map_cons, List.sum_cons, ← Nat.add_assoc]
      cases p with
      | raw r => rw [List.cons_append, movesFrom, movesFrom, ih, List.cons_append, Piece.size]
      | code b => rw [List.cons_append, movesFrom, movesFrom, ih, List.append_assoc, Piece.size]

theorem exists_of_mem_movesOf {a : Nat} {is : List Instruction} {m : Move} (h : m ∈ movesOf a is) :
    ∃ i ∈ is, m.source = i.address := by
  induction is generalizing a with
  | nil => cases h
  | cons i rest ih =>
      rcases List.mem_cons.mp h with rfl | h
      · exact ⟨i, List.mem_cons_self, rfl⟩
      · obtain ⟨j, hj, hsource⟩ := ih h
        exact ⟨j, List.mem_cons_of_mem _ hj, hsource⟩

/-- The addresses at which moves of a piece begin. -/
def sources : Piece → List Nat
  | .raw r => [r.address]
  | .code b => b.instructions.map Instruction.address

theorem exists_of_mem_movesFrom {a : Nat} {ps : List Piece} {m : Move} (h : m ∈ movesFrom a ps) :
    ∃ p ∈ ps, m.source ∈ sources p := by
  induction ps generalizing a with
  | nil => cases h
  | cons p rest ih =>
      have hrest {a : Nat} (h : m ∈ movesFrom a rest) : ∃ q ∈ p :: rest, m.source ∈ sources q := by
        obtain ⟨q, hq, hsource⟩ := ih h
        exact ⟨q, List.mem_cons_of_mem _ hq, hsource⟩
      cases p with
      | raw r =>
          rcases List.mem_cons.mp h with rfl | h
          · exact ⟨_, List.mem_cons_self, List.mem_singleton_self _⟩
          · exact hrest h
      | code b =>
          rcases List.mem_append.mp h with h | h
          · obtain ⟨i, hi, hsource⟩ := exists_of_mem_movesOf h
            exact ⟨_, List.mem_cons_self, List.mem_map.mpr ⟨i, hi, hsource.symm⟩⟩
          · exact hrest h

/-- The move of raw bytes counts for all of them. -/
theorem nearestMove?_raw {a t : Nat} {front rest : List Piece} {r : RawBlock} (hle : r.address ≤ t)
    (hfront : ∀ p ∈ front, ∀ s ∈ sources p, s < r.address)
    (hrest : ∀ p ∈ rest, ∀ s ∈ sources p, t < s) :
    nearestMove? (movesFrom a (front ++ .raw r :: rest)) t =
      some ⟨r.address, a + (front.map Piece.size).sum⟩ := by
  rw [movesFrom_append, movesFrom]
  refine nearestMove?_append hle (fun k hk => ?_) fun k hk => .inr ?_
  · obtain ⟨p, hp, hsource⟩ := exists_of_mem_movesFrom hk
    exact hfront p hp _ hsource
  · obtain ⟨p, hp, hsource⟩ := exists_of_mem_movesFrom hk
    exact hrest p hp _ hsource

/-- Of the instructions at one address the first one tells where the address goes. -/
theorem nearestMove?_code {a : Nat} {front rest : List Piece} {b : Block}
    {before behind : List Instruction} {i : Instruction} (hb : b.instructions = before ++ i :: behind)
    (hfront : ∀ p ∈ front, ∀ s ∈ sources p, s < i.address)
    (hbefore : ∀ j ∈ before, j.address < i.address)
    (hrest : ∀ p ∈ rest, ∀ s ∈ sources p, i.address < s) :
    nearestMove? (movesFrom a (front ++ .code b :: rest)) i.address =
      some ⟨i.address, a + (front.map Piece.size).sum + totalSize before⟩ := by
  rw [movesFrom_append, movesFrom, hb, movesOf_append, movesOf, List.append_assoc, List.cons_append,
    ← List.append_assoc]
  refine nearestMove?_append (Nat.le_refl _) (fun k hk => ?_) fun k hk => ?_
  · rcases List.mem_append.mp hk with hk | hk
    · obtain ⟨p, hp, hsource⟩ := exists_of_mem_movesFrom hk
      exact hfront p hp _ hsource
    · obtain ⟨j, hj, hsource⟩ := exists_of_mem_movesOf hk
      exact hsource ▸ hbefore j hj
  · rcases List.mem_append.mp hk with hk | hk
    · exact Nat.lt_or_ge i.address k.source |>.symm
    · obtain ⟨p, hp, hsource⟩ := exists_of_mem_movesFrom hk
      exact .inr (hrest p hp _ hsource)

/-! ### Placing -/

variable {move : Nat → Nat}

/-- The second instruction is the first one, placed. -/
def Places (move : Nat → Nat) (i j : Instruction) : Prop :=
  (placeInstruction move j.address).run i = .ok () j

theorem run_placeInstruction (move : Nat → Nat) (a : Nat) (i : Instruction) :
    (placeInstruction move a).run i = match i.relativeTarget? with
      | some t => (Instruction.setRelativeTarget (move t)).run { i with address := a }
      | none => .ok () { i with address := a } := by
  simp only [placeInstruction, EStateM.run_bind, EStateM.run_get, EStateM.run_set]
  cases i.relativeTarget? <;> rfl

theorem placeInstruction_ok {a : Nat} {i j : Instruction}
    (h : (placeInstruction move a).run i = .ok () j) : j.address = a ∧ j.size = i.size ∧
      i.SameDeed j ∧ j.operands.map Operand.kind = i.operands.map Operand.kind ∧
      j.otherOperands = i.otherOperands ∧
      j.relativeTarget? = i.relativeTarget?.map (fun t => move t % addressSpace) ∧
      (i.relativeTarget? = none → j = { i with address := a }) := by
  rw [run_placeInstruction] at h
  split at h
  · rename_i t ht
    obtain ⟨hsame, htarget⟩ := Instruction.setRelativeTarget_ok h
    refine ⟨hsame.address_eq, hsame.size_eq, ?_, hsame.kinds_eq, hsame.others_eq, ?_, ?_⟩
    · exact ⟨hsame.deed.1, hsame.deed.2, hsame.deed.3, hsame.deed.4, hsame.deed.5⟩
    · rw [htarget, ht, Option.map_some]
    · intro hnone
      rw [ht] at hnone
      cases hnone
  · rename_i hnone
    cases h
    have hoperand := Instruction.relativeTarget?_eq_none.mp hnone
    refine ⟨rfl, rfl, ⟨rfl, rfl, rfl, rfl, rfl⟩, rfl, rfl, ?_, fun _ => rfl⟩
    rw [hnone, Option.map_none, Instruction.relativeTarget?_eq_none]
    exact hoperand

/-- An instruction as it is after the attempt to place it. -/
def placed (move : Nat → Nat) (a : Nat) (i : Instruction) : Instruction :=
  match (placeInstruction move a).run i with
  | .ok _ j => j
  | .error _ j => j

/-- Instructions placed one behind the other from `a` on. -/
def placedFrom (move : Nat → Nat) (a : Nat) : List Instruction → List Instruction
  | [] => []
  | i :: rest => placed move a i :: placedFrom move (a + i.size) rest

theorem placedFrom_append (move : Nat → Nat) (a : Nat) (is js : List Instruction) :
    placedFrom move a (is ++ js) = placedFrom move a is ++ placedFrom move (a + totalSize is) js := by
  induction is generalizing a with
  | nil => rfl
  | cons i rest ih =>
      rw [List.cons_append, placedFrom, placedFrom, ih, totalSize_cons, Nat.add_assoc,
        List.cons_append]

/-- Each of the instructions can be placed behind the ones in front of it. -/
def Placeable (move : Nat → Nat) (a : Nat) : List Instruction → Prop
  | [] => True
  | i :: rest => (placeInstruction move a).run i = .ok () (placed move a i) ∧
      Placeable move (a + i.size) rest

theorem placeable_append {a : Nat} {is js : List Instruction} : Placeable move a (is ++ js) ↔
    Placeable move a is ∧ Placeable move (a + totalSize is) js := by
  induction is generalizing a with
  | nil => simp [Placeable]
  | cons i rest ih =>
      rw [List.cons_append, Placeable, Placeable, ih, totalSize_cons, and_assoc, Nat.add_assoc]

theorem placeAll_ok {a : Nat} {is js : List Instruction} (h : placeAll move a is = (js, none)) :
    js = placedFrom move a is ∧ Placeable move a is := by
  induction is generalizing a js with
  | nil =>
      cases h
      exact ⟨rfl, trivial⟩
  | cons i rest ih =>
      rw [placeAll] at h
      split at h
      · rename_i j hrun
        have hplaced : placed move a i = j := by rw [placed, hrun]
        rw [(placeInstruction_ok hrun).2.1] at h
        cases hall : placeAll move (a + i.size) rest with
        | mk placed error? =>
            rw [hall] at h
            cases h
            obtain ⟨rfl, hrest⟩ := ih hall
            exact ⟨by rw [placedFrom, hplaced], by rw [hplaced, hrun], hrest⟩
      · cases h

theorem Placeable.contiguous {a : Nat} {is : List Instruction} (h : Placeable move a is) :
    Contiguous a (placedFrom move a is) := by
  induction is generalizing a with
  | nil => trivial
  | cons i rest ih =>
      obtain ⟨haddress, hsize, -⟩ := placeInstruction_ok h.1
      refine ⟨haddress, ?_⟩
      rw [Instruction.stop, haddress, hsize]
      exact ih h.2

theorem Placeable.forall₂ {a : Nat} {is : List Instruction} (h : Placeable move a is) :
    List.Forall₂ (Places move) is (placedFrom move a is) := by
  induction is generalizing a with
  | nil => exact .nil
  | cons i rest ih =>
      refine .cons ?_ (ih h.2)
      rw [Places, (placeInstruction_ok h.1).1]
      exact h.1

theorem Placeable.totalSize_eq {a : Nat} {is : List Instruction} (h : Placeable move a is) :
    totalSize (placedFrom move a is) = totalSize is := by
  induction is generalizing a with
  | nil => rfl
  | cons i rest ih =>
      rw [placedFrom, totalSize_cons, totalSize_cons, ih h.2, (placeInstruction_ok h.1).2.1]

/-- Pieces laid out one behind the other from `a` on. -/
def relaidFrom (move : Nat → Nat) (a : Nat) : List Piece → List Piece
  | [] => []
  | .raw r :: rest => .raw { r with address := a } :: relaidFrom move (a + r.bytes.length) rest
  | .code b :: rest =>
    .code { b with address := a, instructions := placedFrom move a b.instructions } ::
      relaidFrom move (a + b.size) rest

/-- Every instruction can be placed if the pieces are laid out from `a` on. -/
def PlaceablePieces (move : Nat → Nat) (a : Nat) : List Piece → Prop
  | [] => True
  | .raw r :: rest => PlaceablePieces move (a + r.bytes.length) rest
  | .code b :: rest => Placeable move a b.instructions ∧ PlaceablePieces move (a + b.size) rest

theorem placeablePieces_append {a : Nat} {ps qs : List Piece} :
    PlaceablePieces move a (ps ++ qs) ↔ PlaceablePieces move a ps ∧
      PlaceablePieces move (a + (ps.map Piece.size).sum) qs := by
  induction ps generalizing a with
  | nil => simp [PlaceablePieces]
  | cons p rest ih =>
      rw [List.map_cons, List.sum_cons, ← Nat.add_assoc]
      cases p with
      | raw r => rw [List.cons_append, PlaceablePieces, PlaceablePieces, ih, Piece.size]
      | code b => rw [List.cons_append, PlaceablePieces, PlaceablePieces, ih, Piece.size, and_assoc]

/-- A failure is handed on to the end. -/
theorem placePieces_failed {a : Nat} {e : EncodeError} (ps : List Piece) :
    (placePieces move a (some e) ps).2 = some e := by
  induction ps generalizing a with
  | nil => rfl
  | cons p rest ih =>
      cases p with
      | raw r => exact ih
      | code b => exact ih

theorem placePieces_ok {a : Nat} {ps qs : List Piece}
    (h : placePieces move a none ps = (qs, none)) :
    qs = relaidFrom move a ps ∧ PlaceablePieces move a ps := by
  induction ps generalizing a qs with
  | nil =>
      cases h
      exact ⟨rfl, trivial⟩
  | cons p rest ih =>
      cases p with
      | raw r =>
          rw [placePieces] at h
          cases hrest : placePieces move (a + r.bytes.length) none rest with
          | mk placed error? =>
              rw [hrest] at h
              cases h
              obtain ⟨rfl, hplaceable⟩ := ih hrest
              exact ⟨rfl, hplaceable⟩
      | code b =>
          rw [placePieces, if_neg (by simp)] at h
          cases hall : placeAll move a b.instructions with
          | mk js error? =>
              rw [hall] at h
              cases hrest : placePieces move (a + b.size) error? rest with
              | mk placed failed? =>
                  simp only [hrest] at h
                  cases h
                  -- A failure here would still be there at the end.
                  cases error? with
                  | some e =>
                      have hsome : (placePieces move (a + b.size) (some e) rest).2 = some e :=
                        placePieces_failed rest
                      rw [hrest] at hsome
                      cases hsome
                  | none =>
                      obtain ⟨rfl, hplaceable⟩ := placeAll_ok hall
                      obtain ⟨rfl, hplaceables⟩ := ih hrest
                      exact ⟨rfl, hplaceable, hplaceables⟩

theorem PlaceablePieces.tiles {a : Nat} {ps : List Piece} (h : PlaceablePieces move a ps) :
    Tiles a (a + (ps.map Piece.size).sum) (relaidFrom move a ps) ∧
      ((relaidFrom move a ps).map Piece.size) = ps.map Piece.size := by
  induction ps generalizing a with
  | nil => exact ⟨rfl, rfl⟩
  | cons p rest ih =>
      rw [List.map_cons, List.sum_cons, ← Nat.add_assoc]
      cases p with
      | raw r =>
          obtain ⟨htiles, hsizes⟩ := ih h
          exact ⟨⟨rfl, htiles⟩, by rw [relaidFrom, List.map_cons, hsizes]; rfl⟩
      | code b =>
          obtain ⟨htiles, hsizes⟩ := ih h.2
          have hsize : (Piece.code { b with
              address := a, instructions := placedFrom move a b.instructions }).size = b.size :=
            h.1.totalSize_eq
          refine ⟨⟨rfl, ?_⟩, by rw [relaidFrom, List.map_cons, hsizes, hsize]; rfl⟩
          rw [hsize]
          exact htiles

theorem PlaceablePieces.contiguous {a : Nat} {ps : List Piece} (h : PlaceablePieces move a ps) :
    ∀ b ∈ (relaidFrom move a ps).filterMap Piece.block?, Contiguous b.address b.instructions := by
  induction ps generalizing a with
  | nil => simp [relaidFrom]
  | cons p rest ih =>
      cases p with
      | raw r => exact ih h
      | code b => exact List.forall_mem_cons.mpr ⟨h.1.contiguous, ih h.2⟩

/-- A graph that could be laid out again. -/
theorem relayout_ok {g g' : FlowGraph} (h : relayout.run g = .ok () g') :
    PlaceablePieces (movedAddress g.range (movesFrom g.base g.pieces)) g.base g.pieces ∧
      g' = { g with
        pieces := relaidFrom (movedAddress g.range (movesFrom g.base g.pieces)) g.base g.pieces
        size := (g.pieces.map Piece.size).sum } := by
  simp only [relayout, EStateM.run_bind, EStateM.run_get] at h
  cases hplace : placePieces (movedAddress g.range (movesFrom g.base g.pieces)) g.base none
      g.pieces with
  | mk pieces error? =>
      rw [hplace] at h
      cases error? with
      | some e => cases h
      | none =>
          cases h
          obtain ⟨rfl, hplaceable⟩ := placePieces_ok hplace
          exact ⟨hplaceable, by rw [hplaceable.tiles.2]⟩

end BinTrace.FlowGraph
