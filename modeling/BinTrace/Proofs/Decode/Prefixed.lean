import BinTrace.Proofs.Decode.Shapes

/-!
What stands in front of an opcode: legacy prefixes in any number and order, then a REX byte or none.
Behind it the decoder goes by an entry of an opcode map, and the prefixes decide sizes and names.
-/

namespace BinTrace.Decode

namespace Prefixes

variable {p q : Prefixes} {b : UInt8} {bytes front rest : List UInt8}

/-- Whether a byte is a prefix does not depend on those in front of it. -/
theorem isNone_next? (p q : Prefixes) (b : UInt8) : (p.next? b).isNone = (q.next? b).isNone := by
  unfold next?
  split <;> rfl

theorem scan_of_isNone (h : (next? {} b).isNone = true) (rest : List UInt8) :
    p.scan (b :: rest) = (p, b :: rest) := by
  rw [isNone_next? {} p, Option.isNone_iff_eq_none] at h
  rw [scan, h]

theorem scan_append (h : p.scan front = (q, [])) (rest : List UInt8) :
    p.scan (front ++ rest) = q.scan rest := by
  fun_induction scan p front with
  | case1 p =>
      cases h
      rfl
  | case2 p b front next hnext ih =>
      rw [List.cons_append, scan, hnext]
      exact ih h
  | case3 => cases h

/-- What the scan takes are prefixes. -/
theorem exists_of_scan (h : p.scan bytes = (q, rest)) :
    ∃ front, bytes = front ++ rest ∧ p.scan front = (q, []) := by
  fun_induction scan p bytes with
  | case1 p =>
      cases h
      exact ⟨[], rfl, rfl⟩
  | case2 p b bytes next hnext ih =>
      obtain ⟨front, rfl, hfront⟩ := ih h
      refine ⟨b :: front, rfl, ?_⟩
      rw [scan, hnext]
      exact hfront
  | case3 =>
      cases h
      exact ⟨[], rfl, rfl⟩

theorem operandSize_next? (h : p.next? b = some q) :
    q.operandSize = (p.operandSize || decide (b = 0x66)) := by
  by_cases hb : b = 0x66
  · subst hb
    cases h
    simp
  · have htoNat : b.toNat ≠ 0x66 := fun h => hb (UInt8.toNat_inj.mp h)
    rw [decide_eq_false hb, Bool.or_false]
    unfold next? at h
    split at h <;> first | contradiction | (cases h; rfl)

/-- The operand size prefix takes effect wherever it stands among the prefixes. -/
theorem operandSize_of_scan (h : p.scan front = (q, [])) :
    q.operandSize = (p.operandSize || decide (0x66 ∈ front)) := by
  fun_induction scan p front with
  | case1 p =>
      cases h
      simp
  | case2 p b front next hnext ih =>
      rw [ih h, operandSize_next? hnext, Bool.or_assoc]
      simp only [List.mem_cons, Bool.decide_or, eq_comm]
  | case3 => cases h

end Prefixes

/-- The bytes are legacy prefixes and behind them a REX byte or none, and the other arguments are
what the decoder makes of them. -/
inductive ReadsHead (w : Width) : List UInt8 → Prefixes → Rex → Prop
  | intro {front rexs : List UInt8} {p : Prefixes} {rex : Rex}
      (hscan : Prefixes.scan {} front = (p, [])) (hrex : ReadsRex w rexs rex) :
      ReadsHead w (front ++ rexs) p rex

theorem ReadsRex.readsHead {w : Width} {rexs : List UInt8} {rex : Rex} (h : ReadsRex w rexs rex) :
    ReadsHead w rexs {} rex := by
  have hscan : Prefixes.scan {} [] = ({}, []) := rfl
  exact ReadsHead.intro hscan h

namespace ByteReader

variable {α : Type} {w : Width} {p : Prefixes} {rex : Rex} {spec s : OpcodeSpec} {map : OpcodeMap}
  {opcode : Nat} {modRm? : Option ModRm} {c d : Cursor} {head bytes rest : List UInt8} {b : UInt8}

/-- A REX byte is no prefix, and is read as what it is. -/
theorem run_rexByte_present {n : Nat} (hn : n < 16) (hw : w.is64 = true) (rest : List UInt8)
    (position : Nat) :
    (Prefixes.next? {} (UInt8.ofNat (0x40 + n))).isNone = true ∧
      (rexByte w).run ⟨UInt8.ofNat (0x40 + n) :: rest, position⟩ =
        .ok (Rex.ofByte (0x40 + n), ⟨rest, position + 1⟩) := by
  have hbyte : ∀ n < 16, (Prefixes.next? {} (UInt8.ofNat (0x40 + n))).isNone = true ∧
      (UInt8.ofNat (0x40 + n)).toNat = 0x40 + n := by decide
  obtain ⟨hnext, htoNat⟩ := hbyte n hn
  refine ⟨hnext, ?_⟩
  have hrange : (w.is64 && 0x40 ≤ (UInt8.ofNat (0x40 + n)).toNat &&
      (UInt8.ofNat (0x40 + n)).toNat ≤ 0x4f) = true := by
    rw [htoNat, hw]
    simp
    omega
  rw [rexByte, run_bind_of_ok (d := ⟨UInt8.ofNat (0x40 + n) :: rest, position⟩)
    (a := ⟨UInt8.ofNat (0x40 + n) :: rest, position⟩) rfl]
  simp only [hrange, if_true]
  rw [run_bind_of_ok (run_byte ..), htoNat]
  rfl

/-- The head is read, if what follows it does not belong to it. -/
theorem run_head (h : ReadsHead w head p rex) (hb : IsPlain b)
    (hnext : (Prefixes.next? {} b).isNone = true) (f : Prefixes → Rex → ByteReader α)
    (rest : List UInt8) :
    (prefixes >>= fun p => rexByte w >>= fun rex => f p rex).run ⟨head ++ b :: rest, 0⟩ =
      (f p rex).run ⟨b :: rest, head.length⟩ := by
  obtain ⟨hscan, hrex⟩ := h
  rename_i front rexs
  have hlength (behind : List UInt8) :
      (front ++ behind).length - behind.length = front.length := by
    rw [List.length_append, Nat.add_sub_cancel]
  cases hrex with
  | absent =>
      have hall : Prefixes.scan {} (front ++ b :: rest) = (p, b :: rest) := by
        rw [Prefixes.scan_append hscan, Prefixes.scan_of_isNone hnext]
      rw [List.append_nil, run_bind_of_ok (run_prefixes hall 0), hlength, Nat.zero_add,
        run_bind_of_ok (run_rexByte hb _)]
  | present n hn hw =>
      obtain ⟨hnone, hrun⟩ := run_rexByte_present hn hw (b :: rest) front.length
      have hall : Prefixes.scan {} (front ++ UInt8.ofNat (0x40 + n) :: b :: rest) =
          (p, UInt8.ofNat (0x40 + n) :: b :: rest) := by
        rw [Prefixes.scan_append hscan, Prefixes.scan_of_isNone hnone]
      rw [List.append_assoc, List.singleton_append, run_bind_of_ok (run_prefixes hall 0), hlength,
        Nat.zero_add, run_bind_of_ok hrun, List.length_append, List.length_singleton]

/-- Whatever begins with prefixes and a REX byte begins with a head. -/
theorem exists_head {f : Prefixes → Rex → ByteReader α} {x : α}
    (h : (prefixes >>= fun p => rexByte w >>= fun rex => f p rex).run ⟨bytes, 0⟩ = .ok (x, c)) :
    ∃ head p rex rest, bytes = head ++ rest ∧ ReadsHead w head p rex ∧
      (f p rex).run ⟨rest, head.length⟩ = .ok (x, c) := by
  obtain ⟨p, behind, hscan⟩ : ∃ p behind, Prefixes.scan {} bytes = (p, behind) := ⟨_, _, rfl⟩
  obtain ⟨front, rfl, hfront⟩ := Prefixes.exists_of_scan hscan
  rw [run_bind_of_ok (run_prefixes hscan 0), List.length_append, Nat.add_sub_cancel,
    Nat.zero_add] at h
  obtain ⟨rex, d, hrex, h⟩ := run_bind_ok h
  by_cases hpresent : ∃ n rest, n < 16 ∧ w.is64 = true ∧ behind = UInt8.ofNat (0x40 + n) :: rest
  · obtain ⟨n, rest, hn, hw, rfl⟩ := hpresent
    rw [(run_rexByte_present hn hw rest front.length).2] at hrex
    cases hrex
    refine ⟨front ++ [UInt8.ofNat (0x40 + n)], p, _, rest, by simp, ⟨hfront, .present n hn hw⟩, ?_⟩
    rwa [List.length_append]
  · refine ⟨front, p, {}, behind, rfl, ?_, ?_⟩
    · simpa using ReadsHead.intro hfront (.absent (w := w))
    · have habsent : (rexByte w).run ⟨behind, front.length⟩ = .ok ({}, ⟨behind, front.length⟩) := by
        rw [rexByte, run_bind_of_ok (d := ⟨behind, front.length⟩) (a := ⟨behind, front.length⟩) rfl]
        cases behind with
        | nil => rfl
        | cons b rest =>
            dsimp only
            rw [if_neg]
            · rfl
            · intro hrange
              simp only [Bool.and_eq_true, decide_eq_true_eq] at hrange
              obtain ⟨⟨hw, hlow⟩, hhigh⟩ := hrange
              refine hpresent ⟨b.toNat - 0x40, rest, by omega, hw, ?_⟩
              rw [Nat.add_sub_cancel' hlow, UInt8.ofNat_toNat]
      rw [habsent] at hrex
      cases hrex
      exact h

/-- Behind these bytes the decoder goes by the entry. -/
def LeadsTo (w : Width) (front : List UInt8) (p : Prefixes) (rex : Rex) (spec : OpcodeSpec)
    (map : OpcodeMap) (opcode : Nat) : Prop :=
  ∀ rest, (instruction w).run ⟨front ++ rest, 0⟩ =
    (tail w p rex spec map opcode).run ⟨rest, front.length⟩

theorem leadsTo_oneByte (h : ReadsHead w head p rex) (hb : IsOpcode b) :
    LeadsTo w (head ++ [b]) p rex (Opcode.oneByte b.toNat) .oneByte b.toNat := by
  intro rest
  obtain ⟨hplain, hfloat, hescape, h63, h90, hnext, -⟩ := id hb
  have hspec : oneByteSpec w p rex b.toNat = Opcode.oneByte b.toNat := by
    rw [oneByteSpec, if_neg (fun h => h63 h.1), if_neg (fun h => h90 h.1),
      if_neg (fun h => h90 h.1)]
  rw [List.append_assoc, List.singleton_append, List.length_append, instruction,
    run_head h hplain hnext, run_bind_of_ok (run_byte ..),
    run_bind_of_ok (run_startsVector hplain _), if_neg (by decide), if_neg hfloat, if_neg hescape,
    hspec]
  rfl

theorem leadsTo_twoByte (h : ReadsHead w head p rex) (h38 : b.toNat ≠ 0x38) (h3a : b.toNat ≠ 0x3a) :
    LeadsTo w (head ++ [0x0f, b]) p rex (twoByteSpec p b.toNat) .twoByte b.toNat := by
  intro rest
  have hplain : IsPlain 0x0f := by decide
  rw [List.append_assoc, List.cons_append, List.singleton_append, List.length_append, instruction,
    run_head h hplain rfl, run_bind_of_ok (run_byte ..),
    run_bind_of_ok (run_startsVector hplain _), if_neg (by decide), if_neg (by decide),
    if_pos (by decide), run_bind_of_ok (run_byte ..), if_neg h38, if_neg h3a]
  rfl

/-- The entry under the name that the prefixes choose. -/
def namedSpec (p : Prefixes) (opcode : Nat) (s : OpcodeSpec) : OpcodeSpec :=
  if s.has .namedByPrefix then { s with mnemonic := Opcode.vectorName opcode p.mandatory } else s

/-- What an operand template depends on behind these prefixes. -/
def prefixedLayout (w : Width) (p : Prefixes) (rex : Rex) (s : OpcodeSpec) (map : OpcodeMap)
    (opcode : Nat) : Layout :=
  { width := w
    rex := rex
    operandSize := operandSize w s p rex
    addressSize := addressSize w p
    hasOperandSizePrefix := p.operandSize
    isWide := s.has .wideAlways
    vectorClass := vectorClass map opcode p
    opcode := opcode }

/-- What the entry means with its operands and behind these prefixes. -/
def prefixedMeaning (w : Width) (p : Prefixes) (rex : Rex) (s : OpcodeSpec) (map : OpcodeMap)
    (opcode : Nat) (modRm? : Option ModRm) (operands : List Operand) : Meaning :=
  meaningOf w s (shownMnemonic map opcode (operandSize w s p rex) (addressSize w p) p modRm?
    s.mnemonic) (countRegister map opcode p) operands

/-- The operands are read, and with them the meaning is known. -/
theorem run_behindModRm_prefixed (hs : namedSpec p opcode (completeSpec spec modRm?) = s)
    (hexcluded : isExcluded w (completeSpec spec modRm?) = false) {operands : List Operand}
    (hrun : (s.operands.mapM (operand (prefixedLayout w p rex s map opcode) modRm?)).run c =
      .ok (operands, d)) :
    (behindModRm w p rex spec map opcode modRm?).run c =
      .ok (prefixedMeaning w p rex s map opcode modRm? operands, d) := by
  subst hs
  rw [behindModRm]
  simp only [hexcluded, Bool.false_eq_true, if_false]
  exact run_bind_of_ok hrun

end ByteReader

open ByteReader in
/-- The instruction that these bytes begin, where the reading ends. -/
theorem decode_of_leadsTo {w : Width} {front rest : List UInt8} {p : Prefixes} {rex : Rex}
    {spec : OpcodeSpec} {map : OpcodeMap} {opcode : Nat} {m : Meaning} {c : Cursor}
    (h : LeadsTo w front p rex spec map opcode) (hsize : (front ++ rest).length ≤ maxSize)
    (hrun : (tail w p rex spec map opcode).run ⟨rest, front.length⟩ = .ok (m, c)) (a : Nat) :
    decode w (front ++ rest) a = .ok (instructionOf m ((front ++ rest).take c.position) a) := by
  have hall : (instruction w).run ⟨(front ++ rest).take maxSize, 0⟩ = .ok (m, c) := by
    rw [List.take_of_length_le hsize, h rest, hrun]
  rw [decode_of_run a hall]
  rfl

end BinTrace.Decode
