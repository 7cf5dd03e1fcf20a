import BinTrace.Decode.Basic
import BinTrace.Proofs.Outcome

/-!
How many bytes an instruction takes. A reader takes bytes from the front and counts them, and
every instruction takes one byte at least; so the instruction that `decode` returns holds the
bytes at the front of its input, and no more than there are. Most readers look at no byte that they
do not take.
-/

namespace BinTrace.Decode.ByteReader

variable {α β : Type}

/-- A successful run takes `least` bytes or more from the front, and moves the position by as
many as it takes. -/
def Takes (least : Nat) (r : ByteReader α) : Prop :=
  ∀ ⦃c a d⦄, r.run c = .ok (a, d) →
    ∃ n, least ≤ n ∧ n ≤ c.unread.length ∧ d = ⟨c.unread.drop n, c.position + n⟩

theorem Takes.mono {m n : Nat} {r : ByteReader α} (hr : Takes n r) (hmn : m ≤ n) :
    Takes m r := by
  intro c a d h
  obtain ⟨k, hk, hle, rfl⟩ := hr h
  exact ⟨k, by omega, hle, rfl⟩

theorem Takes.bind {m n : Nat} {r : ByteReader α} {f : α → ByteReader β} (hr : Takes m r)
    (hf : ∀ a, Takes n (f a)) : Takes (m + n) (r >>= f) := by
  intro c b e h
  rw [StateT.run_bind] at h
  cases hrun : r.run c with
  | error fault => simp [hrun, Bind.bind, Except.bind] at h
  | ok p =>
      obtain ⟨a, d⟩ := p
      simp only [hrun, Bind.bind, Except.bind] at h
      obtain ⟨i, hi, hile, rfl⟩ := hr hrun
      obtain ⟨j, hj, hjle, rfl⟩ := hf a h
      rw [List.length_drop] at hjle
      refine ⟨i + j, by omega, by omega, ?_⟩
      simp only [List.drop_drop, Nat.add_assoc]

/-- The form in which a reader asks for nothing in advance and whatever follows is counted. -/
theorem Takes.then {n : Nat} {r : ByteReader α} {f : α → ByteReader β} (hr : Takes 0 r)
    (hf : ∀ a, Takes n (f a)) : Takes n (r >>= f) :=
  (hr.bind hf).mono (by omega)

/-- A run that succeeds depends on no byte but those that it takes. -/
def Steady (r : ByteReader α) : Prop :=
  ∀ ⦃c a d⦄, r.run c = .ok (a, d) → ∃ taken, c.unread = taken ++ d.unread ∧
    ∀ rest, r.run ⟨taken ++ rest, c.position⟩ = .ok (a, ⟨rest, c.position + taken.length⟩)

theorem run_bind_ok {r : ByteReader α} {f : α → ByteReader β} {b : β} {c e : Cursor}
    (h : (r >>= f).run c = .ok (b, e)) :
    ∃ a d, r.run c = .ok (a, d) ∧ (f a).run d = .ok (b, e) := by
  rw [StateT.run_bind] at h
  obtain ⟨⟨a, d⟩, hrun, hrest⟩ := Outcome.bind_eq_ok.mp h
  exact ⟨a, d, hrun, hrest⟩

theorem run_bind_of_ok {r : ByteReader α} {f : α → ByteReader β} {a : α} {c d : Cursor}
    (h : r.run c = .ok (a, d)) : (r >>= f).run c = (f a).run d := by
  rw [StateT.run_bind, h]
  rfl

/-- A run that succeeds depends on no byte but those that it takes and the one behind them. -/
def Ahead (r : ByteReader α) : Prop :=
  ∀ ⦃c a d⦄, r.run c = .ok (a, d) → ∃ taken, c.unread = taken ++ d.unread ∧
    ∀ rest, rest.head? = d.unread.head? →
      r.run ⟨taken ++ rest, c.position⟩ = .ok (a, ⟨rest, c.position + taken.length⟩)

theorem Steady.ahead {r : ByteReader α} (hr : Steady r) : Ahead r := by
  intro c a d h
  obtain ⟨taken, hunread, hagain⟩ := hr h
  exact ⟨taken, hunread, fun rest _ => hagain rest⟩

/-- Where a run begins and ends that does the same again. -/
theorem ends_of_run {r : ByteReader α} {a : α} {c d : Cursor} {taken : List UInt8}
    (h : r.run c = .ok (a, d)) (hunread : c.unread = taken ++ d.unread)
    (hagain : r.run ⟨taken ++ d.unread, c.position⟩ =
      .ok (a, ⟨d.unread, c.position + taken.length⟩)) :
    c = ⟨taken ++ d.unread, c.position⟩ ∧ d = ⟨d.unread, c.position + taken.length⟩ := by
  have hc : c = ⟨taken ++ d.unread, c.position⟩ := by rw [← hunread]
  rw [← hc, h] at hagain
  exact ⟨hc, congrArg Prod.snd (Except.ok.inj hagain)⟩

theorem Ahead.run {r : ByteReader α} (hr : Ahead r) {a : α} {c d : Cursor}
    (h : r.run c = .ok (a, d)) :
    ∃ taken, c = ⟨taken ++ d.unread, c.position⟩ ∧ d = ⟨d.unread, c.position + taken.length⟩ ∧
      ∀ rest, rest.head? = d.unread.head? →
        r.run ⟨taken ++ rest, c.position⟩ = .ok (a, ⟨rest, c.position + taken.length⟩) := by
  obtain ⟨taken, hunread, hagain⟩ := hr h
  obtain ⟨hc, hd⟩ := ends_of_run h hunread (hagain _ rfl)
  exact ⟨taken, hc, hd, hagain⟩

theorem Steady.run {r : ByteReader α} (hr : Steady r) {a : α} {c d : Cursor}
    (h : r.run c = .ok (a, d)) :
    ∃ taken, c = ⟨taken ++ d.unread, c.position⟩ ∧ d = ⟨d.unread, c.position + taken.length⟩ ∧
      ∀ rest, r.run ⟨taken ++ rest, c.position⟩ = .ok (a, ⟨rest, c.position + taken.length⟩) := by
  obtain ⟨taken, hunread, hagain⟩ := hr h
  obtain ⟨hc, hd⟩ := ends_of_run h hunread (hagain _)
  exact ⟨taken, hc, hd, hagain⟩

theorem Ahead.takes {r : ByteReader α} (hr : Ahead r) : Takes 0 r := by
  intro c a d h
  obtain ⟨taken, hc, hd, -⟩ := hr.run h
  refine ⟨taken.length, Nat.zero_le _, ?_, ?_⟩
  · rw [hc, List.length_append]
    exact Nat.le_add_right _ _
  · rw [hd, hc, List.drop_left]

theorem Steady.takes {r : ByteReader α} (hr : Steady r) : Takes 0 r := hr.ahead.takes

theorem steady_pure (a : α) : Steady (pure a : ByteReader α) := by
  intro c b d h
  cases h
  exact ⟨[], rfl, fun _ => rfl⟩

theorem steady_reject : Steady (reject : ByteReader α) := by
  intro c a d h
  cases h

theorem Steady.bind {r : ByteReader α} {f : α → ByteReader β} (hr : Steady r)
    (hf : ∀ a, Steady (f a)) : Steady (r >>= f) := by
  intro c b e h
  obtain ⟨a, d, hrun, hrest⟩ := run_bind_ok h
  obtain ⟨first, hc, hd, hagain⟩ := hr.run hrun
  obtain ⟨second, hunread, hagain'⟩ := hf a hrest
  refine ⟨first ++ second, ?_, fun rest => ?_⟩
  · rw [hc, hunread, List.append_assoc]
  · rw [List.append_assoc, run_bind_of_ok (hagain _)]
    have hsecond := hagain' rest
    rw [hd] at hsecond
    rw [hsecond, List.length_append, Nat.add_assoc]

theorem Steady.map {r : ByteReader α} (f : α → β) (hr : Steady r) : Steady (f <$> r) := by
  rw [map_eq_pure_bind]
  exact hr.bind fun a => steady_pure (f a)

theorem steady_byte : Steady byte := by
  intro c a d h
  cases hu : c.unread with
  | nil =>
      simp only [byte, StateT.run_bind, StateT.run_get, pure_bind, hu] at h
      cases h
  | cons b rest =>
      simp only [byte, StateT.run_bind, StateT.run_get, pure_bind, hu] at h
      cases h
      exact ⟨[b], rfl, fun _ => rfl⟩

theorem takes_byte : Takes 1 byte := by
  intro c a d h
  cases hu : c.unread with
  | nil =>
      simp only [byte, StateT.run_bind, StateT.run_get, pure_bind, hu] at h
      cases h
  | cons b rest =>
      simp only [byte, StateT.run_bind, StateT.run_get, pure_bind, hu] at h
      cases h
      exact ⟨1, by omega, by simp, rfl⟩

theorem run_field (bytes rest : List UInt8) (position : Nat) :
    (field bytes.length).run ⟨bytes ++ rest, position⟩ =
      .ok ((bytes, position), ⟨rest, position + bytes.length⟩) := by
  have hfits : ¬(bytes ++ rest).length < bytes.length := by
    rw [List.length_append]
    omega
  simp only [field, StateT.run_bind, StateT.run_get, pure_bind, hfits, if_false, List.drop_left,
    List.take_left]
  rfl

/-- A run of a field that succeeds. -/
theorem run_field_ok {width : Nat} {bytes : List UInt8} {position : Nat} {c d : Cursor}
    (h : (field width).run c = .ok ((bytes, position), d)) : bytes.length = width ∧
      position = c.position ∧ c.unread = bytes ++ d.unread ∧ d.position = c.position + width := by
  simp only [field, StateT.run_bind, StateT.run_get, pure_bind] at h
  by_cases hw : c.unread.length < width
  · simp only [hw, if_true] at h
    cases h
  · simp only [hw, if_false] at h
    cases h
    exact ⟨List.length_take_of_le (by omega), rfl, (List.take_append_drop _ _).symm, rfl⟩

theorem steady_field (width : Nat) : Steady (field width) := by
  rintro c ⟨bytes, position⟩ d h
  obtain ⟨rfl, rfl, hunread, -⟩ := run_field_ok h
  exact ⟨bytes, hunread, fun rest => run_field bytes rest c.position⟩

/-- Readers that look at the next byte, if there is one, before they take it or leave it. -/
theorem ahead_look {f : Cursor → ByteReader α} (hf : ∀ c, Steady (f c))
    (hlook : ∀ c e : Cursor, e.unread.head? = c.unread.head? → f e = f c) : Ahead (get >>= f) := by
  intro c a d h
  have hrun (e : Cursor) : (get >>= f).run e = (f e).run e := rfl
  rw [hrun] at h
  obtain ⟨taken, hunread, hagain⟩ := hf c h
  refine ⟨taken, hunread, fun rest hrest => ?_⟩
  have hhead : (taken ++ rest).head? = c.unread.head? := by
    rw [hunread, List.head?_append, List.head?_append, hrest]
  rw [hrun, hlook c ⟨taken ++ rest, c.position⟩ hhead]
  exact hagain rest

theorem ahead_peek : Ahead peek := by
  refine ahead_look (fun c => ?_) fun ⟨bytes, _⟩ ⟨other, _⟩ h => ?_
  · split
    · exact steady_pure _
    · exact fun c a d h => nomatch h
  · cases bytes <;> cases other <;> cases h <;> rfl

/-- The scan for prefixes depends on the bytes that it takes and on the one behind them. -/
theorem scan_ahead {p q : Prefixes} {bytes rest : List UInt8} (h : p.scan bytes = (q, rest)) :
    ∃ front, bytes = front ++ rest ∧
      ∀ other, other.head? = rest.head? → p.scan (front ++ other) = (q, other) := by
  fun_induction Prefixes.scan p bytes with
  | case1 p =>
      cases h
      refine ⟨[], rfl, fun other hother => ?_⟩
      rw [List.head?_nil, List.head?_eq_none_iff] at hother
      rw [hother]
      rfl
  | case2 p b bytes next hnext ih =>
      obtain ⟨front, rfl, hagain⟩ := ih h
      refine ⟨b :: front, rfl, fun other hother => ?_⟩
      rw [List.cons_append, Prefixes.scan, hnext]
      exact hagain other hother
  | case3 p b bytes hnext =>
      cases h
      refine ⟨[], rfl, fun other hother => ?_⟩
      rw [List.head?_cons, List.head?_eq_some_iff] at hother
      obtain ⟨behind, rfl⟩ := hother
      rw [List.nil_append, Prefixes.scan, hnext]

theorem run_prefixes {bytes rest : List UInt8} {p : Prefixes}
    (h : Prefixes.scan {} bytes = (p, rest)) (position : Nat) : prefixes.run ⟨bytes, position⟩ =
      .ok (p, ⟨rest, position + (bytes.length - rest.length)⟩) := by
  simp only [prefixes, StateT.run_bind, StateT.run_get, pure_bind, h]
  rfl

theorem ahead_prefixes : Ahead prefixes := by
  intro c p d h
  obtain ⟨q, rest, hscan⟩ : ∃ q rest, Prefixes.scan {} c.unread = (q, rest) := ⟨_, _, rfl⟩
  have hrun := run_prefixes hscan c.position
  rw [show (⟨c.unread, c.position⟩ : Cursor) = c from rfl, h] at hrun
  cases hrun
  obtain ⟨front, hfront, hagain⟩ := scan_ahead hscan
  refine ⟨front, hfront, fun other hother => ?_⟩
  rw [run_prefixes (hagain other hother), List.length_append, Nat.add_sub_cancel]

theorem ahead_rexByte (w : Width) : Ahead (rexByte w) := by
  refine ahead_look (fun c => ?_) fun ⟨bytes, _⟩ ⟨other, _⟩ h => ?_
  · split
    · split
      · exact steady_byte.bind fun n => steady_pure _
      · exact steady_pure _
    · exact steady_pure _
  · cases bytes <;> cases other <;> cases h <;> rfl

theorem ahead_startsVector (w : Width) (opcode : Nat) : Ahead (startsVector w opcode) := by
  unfold startsVector
  split
  · refine ahead_look (fun c => ?_) fun ⟨bytes, _⟩ ⟨other, _⟩ h => ?_
    · split <;> exact steady_pure _
    · cases bytes <;> cases other <;> cases h <;> rfl
  · exact (steady_pure false).ahead

theorem steady_signed (width : Nat) : Steady (signed width) :=
  (steady_field width).bind fun _ => steady_pure _

theorem steady_unsigned (width : Nat) : Steady (unsigned width) :=
  (steady_field width).bind fun _ => steady_pure _

theorem steady_displaced (m : MemoryRef) (width : Nat) : Steady (displaced m width) := by
  unfold displaced
  split
  · exact steady_pure _
  · exact (steady_signed width).bind fun _ => steady_pure _

theorem steady_address (rex : Rex) (addressSize : Nat) (relativeToEnd : Bool) (mode rm : Nat) :
    Steady (address rex addressSize relativeToEnd mode rm) := by
  unfold address
  dsimp only
  split
  · refine steady_byte.bind fun sib => ?_
    split <;> exact steady_displaced _ _
  · split <;> exact steady_displaced _ _

theorem steady_modRm (rex : Rex) (addressSize : Nat) (relativeToEnd forceRegister : Bool) :
    Steady (modRm rex addressSize relativeToEnd forceRegister) := by
  refine steady_byte.bind fun b => ?_
  dsimp only
  split
  · exact steady_pure _
  · split
    · exact (steady_displaced _ _).bind fun _ => steady_pure _
    · exact (steady_address _ _ _ _ _).bind fun _ => steady_pure _

theorem steady_signedImmediate (width : Nat) : Steady (signedImmediate width) :=
  (steady_signed width).bind fun _ => steady_pure _

theorem steady_unsignedImmediate (width : Nat) : Steady (unsignedImmediate width) :=
  (steady_unsigned width).bind fun _ => steady_pure _

theorem steady_branch (width : Nat) : Steady (branch width) :=
  (steady_signed width).bind fun _ => steady_pure _

theorem steady_directMemory (width : Nat) : Steady (directMemory width) :=
  (steady_unsigned width).bind fun _ => steady_pure _

theorem steady_farPointer (width : Nat) : Steady (farPointer width) :=
  (steady_unsigned width).bind fun _ => (steady_field 2).bind fun _ => steady_pure _

theorem steady_operand (l : Layout) (modRm? : Option ModRm) (t : Template) :
    Steady (operand l modRm? t) := by
  cases t
  case ib | iz | iv => exact steady_signedImmediate _
  case iw => exact steady_unsignedImmediate _
  case jb | jz => exact steady_branch _
  case ob | ov => exact steady_directMemory _
  case ap => exact steady_farPointer _
  case zb | zv | al | ax | cl | dx | one => exact steady_pure _
  case m =>
    cases modRm? with
    | none => exact steady_reject
    | some m =>
        simp only [operand]
        cases m.memory with
        | none => exact steady_reject
        | some memory => exact steady_pure _
  all_goals
    cases modRm? with
    | none => exact steady_reject
    | some m => exact steady_pure _

theorem steady_mapM {f : α → ByteReader β} (hf : ∀ a, Steady (f a)) (as : List α) :
    Steady (as.mapM f) := by
  induction as with
  | nil => exact steady_pure _
  | cons a rest ih =>
      rw [List.mapM_cons]
      exact (hf a).bind fun _ => ih.bind fun _ => steady_pure _

theorem steady_behindModRm (w : Width) (p : Prefixes) (rex : Rex) (spec : OpcodeSpec)
    (map : OpcodeMap) (opcode : Nat) (modRm? : Option ModRm) :
    Steady (behindModRm w p rex spec map opcode modRm?) := by
  unfold behindModRm
  dsimp only
  split
  · exact steady_reject
  · exact (steady_mapM (steady_operand _ _) _).bind fun _ => steady_pure _

theorem steady_tail (w : Width) (p : Prefixes) (rex : Rex) (spec : OpcodeSpec) (map : OpcodeMap)
    (opcode : Nat) : Steady (tail w p rex spec map opcode) := by
  unfold tail
  split
  · exact ((steady_modRm _ _ _ _).map some).bind fun _ => steady_behindModRm ..
  · exact (steady_pure none).bind fun _ => steady_behindModRm ..

theorem takes_floatTail (w : Width) (p : Prefixes) (rex : Rex) (opcode : Nat) :
    Takes 0 (floatTail w p rex opcode) := by
  refine ahead_peek.takes.then fun modRmByte => (steady_modRm _ _ _ _).takes.then fun m => ?_
  split
  · exact steady_reject.takes
  · exact (steady_pure _).takes

theorem steady_vectorTail (w : Width) (h : VectorHead) : Steady (vectorTail w h) := by
  unfold vectorTail
  split
  · exact steady_pure _
  · refine (steady_modRm _ _ _ _).bind fun m => ?_
    dsimp only
    split
    · exact (steady_signedImmediate 1).bind fun _ => steady_pure _
    · exact steady_pure _

theorem steady_vex (w : Width) (lead : Nat) : Steady (vex w lead) := by
  refine steady_byte.bind fun first => ?_
  dsimp only
  split
  · rw [pure_bind]
    split
    · exact steady_reject
    · exact steady_byte.bind fun opcode => steady_vectorTail _ _
  · simp only [pure_bind]
    refine steady_byte.bind fun second => ?_
    split
    · exact steady_reject
    · exact steady_byte.bind fun opcode => steady_vectorTail _ _

theorem steady_evex (w : Width) : Steady (evex w) := by
  refine steady_byte.bind fun first => ?_
  refine steady_byte.bind fun second => ?_
  refine steady_byte.bind fun _ => ?_
  dsimp only
  split
  · exact steady_reject
  · split
    · exact steady_reject
    · exact steady_byte.bind fun opcode => steady_vectorTail _ _

theorem takes_instruction (w : Width) : Takes 1 (instruction w) := by
  refine ahead_prefixes.takes.then fun p => (ahead_rexByte w).takes.then fun rex => ?_
  refine (takes_byte.bind (n := 0) fun opcode => ?_).mono (by omega)
  refine (ahead_startsVector w opcode).takes.then fun isVector => ?_
  dsimp only
  split
  · split <;> split
    · exact steady_reject.takes
    · exact steady_reject.takes
    · exact (steady_evex w).takes
    · exact (steady_vex w opcode).takes
  · split
    · exact takes_floatTail w p rex opcode
    · split
      · refine (takes_byte.mono (by omega)).then fun second => ?_
        split
        · exact (takes_byte.mono (by omega)).then fun third => (steady_tail ..).takes
        · split
          · exact (takes_byte.mono (by omega)).then fun third => (steady_tail ..).takes
          · exact (steady_tail ..).takes
      · exact (steady_tail ..).takes

end BinTrace.Decode.ByteReader

namespace BinTrace

namespace Decode

theorem decode_of_run {w : Width} {bytes : List UInt8} {m : Meaning} {c : Cursor} (a : Nat)
    (h : (ByteReader.instruction w).run ⟨bytes.take maxSize, 0⟩ = .ok (m, c)) :
    decode w bytes a = .ok
      { address := a, bytes := bytes.take c.position, opcodeClass := m.opcodeClass,
        mnemonic := m.mnemonic, operands := m.operands, uses := m.uses, defs := m.defs } := by
  rw [decode, h]

theorem run_of_decode {w : Width} {bytes : List UInt8} {a : Nat} {i : Instruction}
    (h : decode w bytes a = .ok i) :
    ∃ m c, (ByteReader.instruction w).run ⟨bytes.take maxSize, 0⟩ = .ok (m, c) ∧
      i = { address := a, bytes := bytes.take c.position, opcodeClass := m.opcodeClass,
            mnemonic := m.mnemonic, operands := m.operands, uses := m.uses, defs := m.defs } := by
  unfold decode at h
  split at h
  · rename_i m c hrun
    exact ⟨m, c, hrun, (Except.ok.inj h).symm⟩
  · cases h
  · split at h <;> cases h

end Decode

open Decode in
/-- The fields of a decoded instruction that do not come from its opcode. -/
theorem decode_ok {w : Width} {bytes : List UInt8} {a : Nat} {i : Instruction}
    (h : decode w bytes a = .ok i) :
    i.address = a ∧ i.source = .application ∧
      ∃ n, 1 ≤ n ∧ n ≤ maxSize ∧ n ≤ bytes.length ∧ i.bytes = bytes.take n := by
  obtain ⟨m, c, hrun, rfl⟩ := run_of_decode h
  obtain ⟨n, hn, hle, rfl⟩ := ByteReader.takes_instruction w hrun
  rw [List.length_take] at hle
  refine ⟨rfl, rfl, n, hn, by omega, by omega, ?_⟩
  simp only [Nat.zero_add]

theorem decodeOrInvalid_cons (w : Width) (b : UInt8) (rest : List UInt8) (a : Nat) :
    (decodeOrInvalid w (b :: rest) a).address = a ∧
      (decodeOrInvalid w (b :: rest) a).source = .application ∧
      ∃ n, 1 ≤ n ∧ n ≤ (b :: rest).length ∧
        (decodeOrInvalid w (b :: rest) a).bytes = (b :: rest).take n := by
  cases hd : decode w (b :: rest) a with
  | ok i =>
      obtain ⟨ha, hs, n, hn, -, hle, hb⟩ := decode_ok hd
      simp only [decodeOrInvalid, hd]
      exact ⟨ha, hs, n, hn, hle, hb⟩
  | error e =>
      simp only [decodeOrInvalid, hd]
      exact ⟨rfl, rfl, 1, by omega, by simp, rfl⟩

end BinTrace
