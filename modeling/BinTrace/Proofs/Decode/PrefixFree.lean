import BinTrace.Proofs.Decode.Fields
import Mathlib

/-!
Decoding is a prefix-free code. What is decoded depends on the bytes of the instruction alone: with
anything behind them it stays the same, with fewer of them the bytes run out, and what is no
instruction does not become one when more bytes follow.
-/

namespace BinTrace.Decode.ByteReader

variable {α β : Type} {r : ByteReader α} {f : α → ByteReader β} {c : Cursor}

theorem run_bind_invalid (h : (r >>= f).run c = .error .invalid) :
    r.run c = .error .invalid ∨ ∃ a d, r.run c = .ok (a, d) ∧ (f a).run d = .error .invalid := by
  rw [StateT.run_bind] at h
  cases hrun : r.run c with
  | error fault =>
      rw [hrun] at h
      cases h
      exact .inl rfl
  | ok p =>
      rw [hrun] at h
      exact .inr ⟨p.1, p.2, rfl, h⟩

/-- The reader may run out of bytes, but there is nothing that it rejects. -/
def Tolerant (r : ByteReader α) : Prop := ∀ ⦃c⦄, r.run c ≠ .error .invalid

/-- What is rejected is rejected whatever follows it. -/
def Firm (r : ByteReader α) : Prop :=
  ∀ ⦃c⦄, r.run c = .error .invalid → ∀ rest, r.run ⟨c.unread ++ rest, c.position⟩ = .error .invalid

/-- Where nothing is left the reader runs out of bytes. -/
def Hungry (r : ByteReader α) : Prop := ∀ position, r.run ⟨[], position⟩ = .error .endOfInput

/-- More bytes change no outcome but that of running out. -/
structure Online (r : ByteReader α) : Prop where
  steady : Steady r
  firm : Firm r

theorem tolerant_pure (a : α) : Tolerant (pure a : ByteReader α) := fun _ h => nomatch h

theorem Tolerant.bind (hr : Tolerant r) (hf : ∀ a, Tolerant (f a)) : Tolerant (r >>= f) := by
  intro c h
  rcases run_bind_invalid h with h | ⟨a, d, -, h⟩
  · exact hr h
  · exact hf a h

theorem Tolerant.firm (hr : Tolerant r) : Firm r := fun _ h => absurd h (@hr _)

theorem Steady.online (hr : Steady r) (ht : Tolerant r) : Online r := ⟨hr, ht.firm⟩

theorem online_pure (a : α) : Online (pure a : ByteReader α) :=
  (steady_pure a).online (tolerant_pure a)

theorem online_reject : Online (reject : ByteReader α) := ⟨steady_reject, fun _ _ _ => rfl⟩

/-- A run that succeeded goes the same way if more bytes follow. -/
theorem Steady.run_append {a : α} {d : Cursor} (hr : Steady r) (h : r.run c = .ok (a, d))
    (rest : List UInt8) :
    r.run ⟨c.unread ++ rest, c.position⟩ = .ok (a, ⟨d.unread ++ rest, d.position⟩) := by
  obtain ⟨taken, hc, hd, hagain⟩ := hr.run h
  have hunread : c.unread = taken ++ d.unread := congrArg Cursor.unread hc
  have hposition : d.position = c.position + taken.length := congrArg Cursor.position hd
  rw [hunread, List.append_assoc, hagain, hposition]

theorem Firm.bind (hr : Online r) (hf : ∀ a, Firm (f a)) : Firm (r >>= f) := by
  intro c h rest
  rcases run_bind_invalid h with h | ⟨a, d, hrun, h⟩
  · rw [StateT.run_bind, hr.firm h rest]
    rfl
  · rw [run_bind_of_ok (hr.steady.run_append hrun rest)]
    exact hf a h rest

theorem Online.bind (hr : Online r) (hf : ∀ a, Online (f a)) : Online (r >>= f) :=
  ⟨hr.steady.bind fun a => (hf a).steady, .bind hr fun a => (hf a).firm⟩

theorem Hungry.bind (hr : Hungry r) (f : α → ByteReader β) : Hungry (r >>= f) := by
  intro position
  rw [StateT.run_bind, hr position]
  rfl

/-- A reader that cannot do without bytes takes some. -/
theorem Steady.takes_of_hungry (hr : Steady r) (hungry : Hungry r) : Takes 1 r := by
  intro c a d h
  obtain ⟨taken, hc, hd, hagain⟩ := hr.run h
  have hunread : c.unread = taken ++ d.unread := congrArg Cursor.unread hc
  refine ⟨taken.length, ?_, by simp [hunread], by rw [hunread, List.drop_left]; exact hd⟩
  cases taken with
  | nil =>
      have hnone := hagain []
      rw [List.append_nil, hungry] at hnone
      cases hnone
  | cons b behind => simp

/-- The byte that was looked at is there, if what follows takes one. -/
theorem Steady.behind (hr : Ahead r) (hf : ∀ a, Steady (f a)) (htakes : ∀ a, Takes 1 (f a)) :
    Steady (r >>= f) := by
  intro c b e h
  obtain ⟨a, d, hrun, hrest⟩ := run_bind_ok h
  obtain ⟨first, hc, hd, hagain⟩ := hr.run hrun
  obtain ⟨second, hd', he, hagain'⟩ := (hf a).run hrest
  have hunread : d.unread = second ++ e.unread := congrArg Cursor.unread hd'
  have hlen : 1 ≤ second.length := by
    obtain ⟨n, hn, -, hdrop⟩ := htakes a hrest
    have hsum := congrArg Cursor.position (he.symm.trans hdrop)
    dsimp only at hsum
    omega
  refine ⟨first ++ second, ?_, fun rest => ?_⟩
  · rw [hc, hunread, List.append_assoc]
  · have hhead : (second ++ rest).head? = d.unread.head? := by
      rw [hunread, List.head?_append, List.head?_append]
      cases second with
      | nil => cases hlen
      | cons b behind => rfl
    have hsecond := hagain' rest
    rw [hd] at hsecond
    rw [List.append_assoc, run_bind_of_ok (hagain _ hhead), hsecond, List.length_append,
      Nat.add_assoc]

/-- A reader that looks at the next byte. If there is none, what follows has to run out of bytes. -/
theorem Firm.behind (hr : Ahead r) (ht : Tolerant r) (hf : ∀ a, Firm (f a))
    (hend : ∀ ⦃c a d⦄, r.run c = .ok (a, d) → d.unread = [] → Hungry (f a)) : Firm (r >>= f) := by
  intro c h rest
  rcases run_bind_invalid h with h | ⟨a, d, hrun, h⟩
  · exact absurd h (@ht c)
  · obtain ⟨taken, hc, hd, hagain⟩ := hr.run hrun
    have hunread : c.unread = taken ++ d.unread := congrArg Cursor.unread hc
    have hnonempty : d.unread ≠ [] := by
      intro hnil
      rw [hd, hnil, hend hrun hnil] at h
      cases h
    have hhead : (d.unread ++ rest).head? = d.unread.head? := by
      rw [List.head?_append_of_ne_nil _ hnonempty]
    rw [hunread, List.append_assoc, run_bind_of_ok (hagain _ hhead)]
    have hstands := hf a h rest
    rw [hd] at hstands ⊢
    exact hstands

theorem Online.behind (hr : Ahead r) (ht : Tolerant r) (hf : ∀ a, Online (f a))
    (hungry : ∀ a, Hungry (f a)) : Online (r >>= f) :=
  ⟨.behind hr (fun a => (hf a).steady) fun a => (hf a).steady.takes_of_hungry (hungry a),
    .behind hr ht (fun a => (hf a).firm) fun _ a _ _ _ => hungry a⟩

/-- A choice by the next byte. Where there is none the way is taken that has to run out of bytes. -/
theorem Online.look {r : ByteReader Bool} {yes no : ByteReader β} (hr : Ahead r) (ht : Tolerant r)
    (hend : ∀ ⦃c isYes d⦄, r.run c = .ok (isYes, d) → d.unread = [] → isYes = false)
    (hyes : Online yes) (htakes : Takes 1 yes) (hno : Online no) (hungry : Hungry no) :
    Online (r >>= fun isYes => if isYes then yes else no) := by
  refine ⟨.behind hr (fun isYes => ?_) fun isYes => ?_,
    .behind hr ht (fun isYes => ?_) fun c isYes d hrun hnil => ?_⟩
  · cases isYes with
    | false => exact hno.steady
    | true => exact hyes.steady
  · cases isYes with
    | false => exact hno.steady.takes_of_hungry hungry
    | true => exact htakes
  · cases isYes with
    | false => exact hno.firm
    | true => exact hyes.firm
  · rw [hend hrun hnil]
    exact hungry

theorem tolerant_byte : Tolerant byte := by
  intro c h
  simp only [byte, StateT.run_bind, StateT.run_get, pure_bind] at h
  cases hc : c.unread with
  | nil =>
      rw [hc] at h
      cases h
  | cons b rest =>
      rw [hc] at h
      cases h

theorem online_byte : Online byte := steady_byte.online tolerant_byte

theorem hungry_byte (f : Nat → ByteReader β) : Hungry (byte >>= f) := .bind (fun _ => rfl) f

theorem tolerant_field (width : Nat) : Tolerant (field width) := by
  intro c h
  simp only [field, StateT.run_bind, StateT.run_get, pure_bind] at h
  split at h <;> cases h

theorem tolerant_signed (width : Nat) : Tolerant (signed width) :=
  (tolerant_field width).bind fun _ => tolerant_pure _

theorem tolerant_unsigned (width : Nat) : Tolerant (unsigned width) :=
  (tolerant_field width).bind fun _ => tolerant_pure _

theorem tolerant_displaced (m : MemoryRef) (width : Nat) : Tolerant (displaced m width) := by
  unfold displaced
  split
  · exact tolerant_pure _
  · exact (tolerant_signed width).bind fun _ => tolerant_pure _

theorem tolerant_address (rex : Rex) (addressSize : Nat) (relativeToEnd : Bool) (mode rm : Nat) :
    Tolerant (address rex addressSize relativeToEnd mode rm) := by
  unfold address
  dsimp only
  split
  · refine tolerant_byte.bind fun sib => ?_
    split <;> exact tolerant_displaced _ _
  · split <;> exact tolerant_displaced _ _

theorem tolerant_modRm (rex : Rex) (addressSize : Nat) (relativeToEnd forceRegister : Bool) :
    Tolerant (modRm rex addressSize relativeToEnd forceRegister) := by
  refine tolerant_byte.bind fun b => ?_
  dsimp only
  split
  · exact tolerant_pure _
  · split
    · exact (tolerant_displaced _ _).bind fun _ => tolerant_pure _
    · exact (tolerant_address _ _ _ _ _).bind fun _ => tolerant_pure _

theorem online_modRm (rex : Rex) (addressSize : Nat) (relativeToEnd forceRegister : Bool) :
    Online (modRm rex addressSize relativeToEnd forceRegister) :=
  (steady_modRm ..).online (tolerant_modRm ..)

theorem hungry_modRm (rex : Rex) (addressSize : Nat) (relativeToEnd forceRegister : Bool)
    (f : ModRm → ByteReader β) :
    Hungry (modRm rex addressSize relativeToEnd forceRegister >>= f) :=
  .bind (hungry_byte _) f

theorem tolerant_signedImmediate (width : Nat) : Tolerant (signedImmediate width) :=
  (tolerant_signed width).bind fun _ => tolerant_pure _

/-- Only a template that asks for memory rejects anything, and it takes no bytes. -/
theorem firm_operand (l : Layout) (modRm? : Option ModRm) (t : Template) :
    Firm (operand l modRm? t) := by
  cases t
  case ib | iz | iv => exact (tolerant_signedImmediate _).firm
  case iw | ob | ov => exact ((tolerant_unsigned _).bind fun _ => tolerant_pure _).firm
  case jb | jz => exact ((tolerant_signed _).bind fun _ => tolerant_pure _).firm
  case ap =>
    exact ((tolerant_unsigned _).bind fun _ => (tolerant_field 2).bind fun _ =>
      tolerant_pure _).firm
  case zb | zv | al | ax | cl | dx | one => exact (tolerant_pure _).firm
  case m =>
    cases modRm? with
    | none => exact online_reject.firm
    | some m =>
        simp only [operand]
        cases m.memory with
        | none => exact online_reject.firm
        | some memory => exact (tolerant_pure _).firm
  all_goals
    cases modRm? with
    | none => exact online_reject.firm
    | some m => exact (tolerant_pure _).firm

theorem firm_mapM {f : α → ByteReader β} (hf : ∀ a, Online (f a)) (as : List α) :
    Firm (as.mapM f) := by
  induction as with
  | nil => exact (tolerant_pure _).firm
  | cons a rest ih =>
      rw [List.mapM_cons]
      exact .bind (hf a) fun _ =>
        .bind ⟨steady_mapM (fun a => (hf a).steady) rest, ih⟩ fun _ => (tolerant_pure _).firm

section Tail

variable {w : Width} {p : Prefixes} {rex : Rex} {spec : OpcodeSpec} {map : OpcodeMap} {opcode : Nat}

theorem firm_behindModRm (w : Width) (p : Prefixes) (rex : Rex) (spec : OpcodeSpec)
    (map : OpcodeMap) (opcode : Nat) (modRm? : Option ModRm) :
    Firm (behindModRm w p rex spec map opcode modRm?) := by
  unfold behindModRm
  dsimp only
  split
  · exact online_reject.firm
  · exact .bind ⟨steady_mapM (steady_operand _ _) _,
      firm_mapM (fun t => ⟨steady_operand _ _ t, firm_operand _ _ t⟩) _⟩
      fun _ => (tolerant_pure _).firm

theorem online_tail (w : Width) (p : Prefixes) (rex : Rex) (spec : OpcodeSpec) (map : OpcodeMap)
    (opcode : Nat) : Online (tail w p rex spec map opcode) := by
  refine ⟨steady_tail .., ?_⟩
  unfold tail
  split
  · rw [bind_map_left]
    exact .bind (online_modRm ..) fun _ => firm_behindModRm ..
  · exact .bind (online_pure none) fun _ => firm_behindModRm ..

theorem hungry_tail (h : spec.needsModRm = true) : Hungry (tail w p rex spec map opcode) := by
  rw [tail, if_pos h, bind_map_left]
  exact hungry_modRm _ _ _ _ _

/-- The byte that a floating-point opcode looks at is its ModRM byte. -/
theorem online_floatTail (w : Width) (p : Prefixes) (rex : Rex) (opcode : Nat) :
    Online (floatTail w p rex opcode) := by
  refine .behind ahead_peek (fun c h => ?_) (fun b => (online_modRm ..).bind fun m => ?_)
    fun b => hungry_modRm _ _ _ _ _
  · simp only [peek, StateT.run_bind, StateT.run_get, pure_bind] at h
    split at h <;> cases h
  · split
    · exact online_reject
    · exact online_pure _

theorem online_vectorTail (w : Width) (h : VectorHead) : Online (vectorTail w h) := by
  refine (steady_vectorTail w h).online ?_
  unfold vectorTail
  split
  · exact tolerant_pure _
  · refine (tolerant_modRm ..).bind fun m => ?_
    dsimp only
    split
    · exact (tolerant_signedImmediate 1).bind fun _ => tolerant_pure _
    · exact tolerant_pure _

theorem online_vex (w : Width) (lead : Nat) : Online (vex w lead) := by
  refine ⟨steady_vex w lead, .bind online_byte fun first => ?_⟩
  dsimp only
  split
  · rw [pure_bind]
    split
    · exact online_reject.firm
    · exact .bind online_byte fun opcode => (online_vectorTail _ _).firm
  · simp only [pure_bind]
    refine .bind online_byte fun second => ?_
    split
    · exact online_reject.firm
    · exact .bind online_byte fun opcode => (online_vectorTail _ _).firm

theorem online_evex (w : Width) : Online (evex w) := by
  refine ⟨steady_evex w, .bind online_byte fun first => .bind online_byte fun second =>
    .bind online_byte fun _ => ?_⟩
  dsimp only
  split
  · exact online_reject.firm
  · split
    · exact online_reject.firm
    · exact .bind online_byte fun opcode => (online_vectorTail _ _).firm

/-- In 64-bit code the lead byte alone decides. -/
theorem startsVector_bits64 (opcode : Nat) : startsVector .bits64 opcode =
    pure (decide (opcode = 0xc4 ∨ opcode = 0xc5 ∨ opcode = 0x62)) := by
  unfold startsVector
  split
  · rename_i hlead
    rw [decide_eq_true hlead]
    refine StateT.ext fun c => ?_
    simp only [StateT.run_bind, StateT.run_get, pure_bind]
    split <;> rfl
  · rename_i hlead
    rw [decide_eq_false hlead]

/-- In 32-bit code nothing is taken for a vector extension where the bytes end. -/
theorem startsVector_bits32_end {d : Cursor} {isVector : Bool}
    (h : (startsVector .bits32 opcode).run c = .ok (isVector, d)) (hend : d.unread = []) :
    isVector = false := by
  unfold startsVector at h
  split at h
  · simp only [StateT.run_bind, StateT.run_get, pure_bind] at h
    split at h
    · rename_i b rest hc
      cases h
      rw [hc] at hend
      cases hend
    · cases h
      rfl
  · cases h
    rfl

theorem tolerant_startsVector (w : Width) (opcode : Nat) : Tolerant (startsVector w opcode) := by
  intro c h
  unfold startsVector at h
  split at h
  · simp only [StateT.run_bind, StateT.run_get, pure_bind] at h
    split at h <;> cases h
  · cases h

theorem online_escape (w : Width) (p : Prefixes) (rex : Rex) :
    Online (byte >>= fun second =>
      if second = 0x38 then
        byte >>= fun third => tail w p rex (threeByteSpec38 p third) .threeByte third
      else if second = 0x3a then
        byte >>= fun third => tail w p rex (threeByteSpec3a third) .threeByte third
      else tail w p rex (twoByteSpec p second) .twoByte second) := by
  refine online_byte.bind fun second => ?_
  split
  · exact online_byte.bind fun third => online_tail ..
  · split
    · exact online_byte.bind fun third => online_tail ..
    · exact online_tail ..

theorem tolerant_prefixes : Tolerant prefixes := fun _ h => nomatch h

theorem tolerant_rexByte (w : Width) : Tolerant (rexByte w) := by
  intro c h
  simp only [rexByte, StateT.run_bind, StateT.run_get, pure_bind] at h
  split at h
  · rename_i b rest hc
    split at h
    · rcases run_bind_invalid h with h | ⟨a, d, -, h⟩
      · exact tolerant_byte h
      · cases h
    · cases h
  · cases h

theorem online_instruction (w : Width) : Online (instruction w) := by
  refine .behind ahead_prefixes tolerant_prefixes (fun p => .behind (ahead_rexByte w)
    (tolerant_rexByte w) (fun rex => online_byte.bind fun opcode => ?_) fun rex => hungry_byte _)
    fun p position => rfl
  by_cases hlead : opcode = 0xc4 ∨ opcode = 0xc5 ∨ opcode = 0x62
  · have hvector : Online (if opcode = 0x62 then evex w else vex w opcode) := by
      split
      · exact online_evex w
      · exact online_vex w opcode
    have hungry : Hungry (if opcode = 0x62 then evex w else vex w opcode) := by
      split <;> exact hungry_byte _
    cases w with
    | bits64 =>
        rw [startsVector_bits64, decide_eq_true hlead, pure_bind]
        dsimp only
        rw [if_pos rfl]
        split
        · exact online_reject.bind fun _ => hvector
        · exact hvector
    | bits32 =>
        -- In 32-bit code the byte behind decides what the opcode is, and is not taken for that.
        rw [if_neg (by omega : ¬(0xd8 ≤ opcode ∧ opcode ≤ 0xdf)), if_neg (by omega : opcode ≠ 0x0f)]
        refine .look (ahead_startsVector .bits32 opcode) (tolerant_startsVector .bits32 opcode)
          (fun _ _ _ => startsVector_bits32_end) ?_ ?_ (online_tail ..)
          (hungry_tail (needsModRm_vectorLead hlead .bits32 p rex))
        · dsimp only
          split
          · exact online_reject.bind fun _ => hvector
          · exact hvector
        · dsimp only
          split
          · exact fun c a d h => nomatch h
          · exact hvector.steady.takes_of_hungry hungry
  · rw [startsVector, if_neg hlead, pure_bind]
    dsimp only
    rw [if_neg Bool.false_ne_true]
    split
    · exact online_floatTail w p rex opcode
    · split
      · exact online_escape w p rex
      · exact online_tail ..

end Tail

end BinTrace.Decode.ByteReader

namespace BinTrace

open Decode

variable {w : Width} {bytes : List UInt8} {a : Nat} {i : Instruction}

/-- What a decoded instruction was read from: its own bytes, with anything behind them. -/
theorem run_bytes_of_decode (h : decode w bytes a = .ok i) :
    ∃ m, (∀ rest, (ByteReader.instruction w).run ⟨i.bytes ++ rest, 0⟩ = .ok (m, ⟨rest, i.size⟩)) ∧
      i = { address := a, bytes := i.bytes, opcodeClass := m.opcodeClass, mnemonic := m.mnemonic,
            operands := m.operands, uses := m.uses, defs := m.defs } := by
  obtain ⟨m, c, hrun, hi⟩ := run_of_decode h
  obtain ⟨taken, hc, hd, hagain⟩ := (ByteReader.online_instruction w).steady.run hrun
  have hunread : bytes.take maxSize = taken ++ c.unread := congrArg Cursor.unread hc
  have hposition : c.position = taken.length := by
    rw [congrArg Cursor.position hd, Nat.zero_add]
  have hle : taken.length ≤ maxSize := by
    have hlength := congrArg List.length hunread
    rw [List.length_take, List.length_append] at hlength
    omega
  have hbytes : i.bytes = taken := by
    rw [hi, hposition]
    calc bytes.take taken.length = (bytes.take maxSize).take taken.length := by
          rw [List.take_take, Nat.min_eq_left hle]
      _ = taken := by rw [hunread, List.take_left]
  refine ⟨m, fun rest => ?_, by rw [hbytes]; rw [hi, ← hbytes, hi]⟩
  rw [Instruction.size, hbytes, hagain rest, Nat.zero_add]

theorem decode_size_le (h : decode w bytes a = .ok i) : i.size ≤ maxSize := by
  obtain ⟨-, -, n, -, hmax, -, hbytes⟩ := decode_ok h
  rw [Instruction.size, hbytes, List.length_take]
  omega

theorem decode_bytes_append (h : decode w bytes a = .ok i) (rest : List UInt8) :
    decode w (i.bytes ++ rest) a = .ok i := by
  obtain ⟨m, hrun, hi⟩ := run_bytes_of_decode h
  have htake : (i.bytes ++ rest).take maxSize = i.bytes ++ rest.take (maxSize - i.bytes.length) := by
    rw [List.take_append, List.take_of_length_le (decode_size_le h)]
  have hagain := hrun (rest.take (maxSize - i.bytes.length))
  rw [← htake] at hagain
  rw [decode_of_run a hagain, Instruction.size, List.take_left, ← hi]

/-- The front of an instruction is neither another instruction nor known to be none. -/
theorem decode_take_of_lt_size (h : decode w bytes a = .ok i) {k : Nat} (hk : k < i.size) :
    decode w (i.bytes.take k) a = .error (.truncated a k) := by
  obtain ⟨m, hrun, -⟩ := run_bytes_of_decode h
  have hwhole := hrun []
  rw [List.append_nil] at hwhole
  have hmax := decode_size_le h
  have hlen : (i.bytes.take k).length = k := List.length_take_of_le (Nat.le_of_lt hk)
  have hfits : (i.bytes.take k).take maxSize = i.bytes.take k :=
    List.take_of_length_le (by omega)
  have honline := ByteReader.online_instruction w
  cases hpart : (ByteReader.instruction w).run ⟨(i.bytes.take k).take maxSize, 0⟩ with
  | ok p =>
      obtain ⟨m', c⟩ := p
      -- the whole instruction would end where this one does
      obtain ⟨j, -, hle, hc⟩ := honline.steady.takes hpart
      have hmore := honline.steady.run_append hpart (i.bytes.drop k)
      rw [hfits, List.take_append_drop, hwhole, hc] at hmore
      have hend := congrArg Cursor.position (Prod.mk.inj (Except.ok.inj hmore)).2
      rw [hfits, hlen] at hle
      dsimp only at hend
      omega
  | error fault =>
      cases fault with
      | invalid =>
          have hmore := honline.firm hpart (i.bytes.drop k)
          rw [hfits, List.take_append_drop, hwhole] at hmore
          cases hmore
      | endOfInput => rw [decode, hpart, hlen, if_neg (by omega)]

theorem decode_append_of_invalid {b : Nat} (h : decode w bytes a = .error (.invalidEncoding b))
    (rest : List UInt8) : decode w (bytes ++ rest) a = .error (.invalidEncoding b) := by
  cases hrun : (ByteReader.instruction w).run ⟨bytes.take maxSize, 0⟩ with
  | ok p =>
      rw [decode, hrun] at h
      cases h
  | error fault =>
      cases fault with
      | invalid =>
          have hmore := (ByteReader.online_instruction w).firm hrun
            (rest.take (maxSize - bytes.length))
          rw [← List.take_append] at hmore
          rw [decode, hrun] at h
          rw [decode, hmore]
          exact h
      | endOfInput =>
          -- the limit was reached, so what follows was not looked at
          by_cases hlong : maxSize < bytes.length
          · rw [decode, hrun, if_pos hlong] at h
            rw [decode, List.take_append_of_le_length (Nat.le_of_lt hlong), hrun,
              if_pos (by rw [List.length_append]; omega)]
            exact h
          · rw [decode, hrun, if_neg hlong] at h
            cases h

/-- Decoding takes a word of a prefix-free code from the front: the instruction's own bytes, which
are at most fifteen, decide what it is. Anything may follow them, fewer of them are a truncation, and
bytes that begin no instruction begin none whatever follows. -/
theorem decode_prefixFree (w : Width) (bytes : List UInt8) (a : Nat) :
    (∀ i, decode w bytes a = .ok i →
      1 ≤ i.size ∧ i.size ≤ min maxSize bytes.length ∧ i.bytes = bytes.take i.size ∧
      (∀ rest, decode w (bytes.take i.size ++ rest) a = .ok i) ∧
      ∀ k < i.size, decode w (bytes.take k) a = .error (.truncated a k)) ∧
    ∀ b, decode w bytes a = .error (.invalidEncoding b) →
      ∀ rest, decode w (bytes ++ rest) a = .error (.invalidEncoding b) := by
  refine ⟨fun i h => ?_, fun b h => decode_append_of_invalid h⟩
  obtain ⟨-, -, n, hpos, hmax, hle, hbytes⟩ := decode_ok h
  have hsize : i.size = n := by
    rw [Instruction.size, hbytes, List.length_take_of_le hle]
  have hfront : i.bytes = bytes.take i.size := by rw [hsize]; exact hbytes
  refine ⟨by omega, by omega, hfront, fun rest => ?_, fun k hk => ?_⟩
  · rw [← hfront]
    exact decode_bytes_append h rest
  · have htake : bytes.take k = i.bytes.take k := by
      rw [hfront, List.take_take, Nat.min_eq_left (Nat.le_of_lt hk)]
    rw [htake]
    exact decode_take_of_lt_size h hk

/-- A far pointer in 32-bit code, whose first byte would begin a vector extension encoding if
another byte came next. -/
def loadFarPointer : Instruction :=
  { address := 0x1000
    bytes := [0xc4, 0x45, 0x08]
    opcodeClass := .int
    mnemonic := "les"
    operands := [Operand.ofRegister ⟨.dword, 0⟩,
      Operand.memory { base := some ⟨.dword, 5⟩ } 8 2 1]
    uses := RegSet.ofGprs [.bp]
    defs := RegSet.ofGprs [.ax] }

set_option maxRecDepth 4096 in
theorem decode_loadFarPointer :
    decode .bits32 [0xc4, 0x45, 0x08, 0x90] 0x1000 = .ok loadFarPointer := by cbv

set_option maxRecDepth 4096 in
theorem decode_prefixFree_loadFarPointer :
    decode .bits32 [0xc4, 0x45, 0x08, 0xc0, 0x77] 0x1000 = .ok loadFarPointer ∧
    decode .bits32 [0xc4] 0x1000 = .error (.truncated 0x1000 1) ∧
    decode .bits64 [0x66, 0xc4] 0x1000 = .error (.invalidEncoding 0x1000) ∧
    decode .bits64 [0x66, 0xc4, 0x45] 0x1000 = .error (.invalidEncoding 0x1000) := by
  obtain ⟨-, -, -, hagain, hfront⟩ :=
    (decode_prefixFree .bits32 _ 0x1000).1 _ decode_loadFarPointer
  have hnone : decode .bits64 [0x66, 0xc4] 0x1000 = .error (.invalidEncoding 0x1000) := by cbv
  exact ⟨hagain [0xc0, 0x77], hfront 1 (by decide), hnone,
    (decode_prefixFree .bits64 _ 0x1000).2 _ hnone [0x45]⟩

end BinTrace
