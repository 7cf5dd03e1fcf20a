import BinTrace.Proofs.Decode.Fields

/-!
Readers that can be aimed: when an instruction has a relative operand, the operand says where the
bytes of its displacement are, and writing other bytes there makes the reader give the same
instruction with another displacement. This is put together along the way the decoder takes:
prefixes, opcode, ModRM, and what is behind it.
-/

namespace BinTrace.Decode.ByteReader

open LittleEndian (signedValue)

variable {α : Type} {c d e : Cursor} {m : Meaning} {o : Operand} {front field back : List UInt8}

/-- `o` is the only relative operand of what was read, and names the bytes between `front` and
`back`. With another field in their place, and whatever follows, the reader does the same with
another displacement. -/
structure AimsAt (r : ByteReader Meaning) (c e : Cursor) (m : Meaning) (o : Operand)
    (front field back : List UInt8) : Prop where
  unread_eq : c.unread = front ++ (field ++ (back ++ e.unread))
  alone : m.operands.filter Operand.isRelative = [o]
  offset_eq : o.offset = c.position + front.length
  width_eq : o.width = field.length
  width_mem : o.width ∈ [1, 2, 4]
  run_eq : ∀ other rest, other.length = field.length →
    r.run ⟨front ++ (other ++ (back ++ rest)), c.position⟩ = .ok (m.aim (signedValue other),
      ⟨rest, c.position + (front.length + (field.length + back.length))⟩)

/-- Whatever gives a relative operand can be aimed. The field comes behind `least` bytes or more. -/
def Aims (least : Nat) (r : ByteReader Meaning) : Prop :=
  ∀ ⦃c e m⦄, r.run c = .ok (m, e) → ∀ o ∈ m.operands, o.isRelative = true →
    ∃ front field back, least ≤ front.length ∧ AimsAt r c e m o front field back

theorem run_map_of_ok {β : Type} {r : ByteReader α} {f : α → β} {a : α} (h : r.run c = .ok (a, d)) :
    (f <$> r).run c = .ok (f a, d) := by
  rw [StateT.run_map, h]
  rfl

theorem Aims.zero {n : Nat} {r : ByteReader Meaning} (hr : Aims n r) : Aims 0 r := by
  intro c e m h o ho hrelative
  obtain ⟨front, field, back, -, hat⟩ := hr h o ho hrelative
  exact ⟨front, field, back, Nat.zero_le _, hat⟩

theorem aims_of_forall_not {n : Nat} {r : ByteReader Meaning}
    (h : ∀ ⦃c e m⦄, r.run c = .ok (m, e) → ∀ o ∈ m.operands, o.isRelative = false) :
    Aims n r := by
  intro c e m hrun o ho hrelative
  rw [h hrun o ho] at hrelative
  cases hrelative

theorem aims_reject (n : Nat) : Aims n reject := fun _ _ _ h => nomatch h

theorem AimsAt.position_eq {r : ByteReader Meaning} (hat : AimsAt r c e m o front field back)
    (h : r.run c = .ok (m, e)) :
    e.position = c.position + (front.length + (field.length + back.length)) := by
  have hagain := hat.run_eq field e.unread rfl
  rw [← hat.unread_eq, show (⟨c.unread, c.position⟩ : Cursor) = c from rfl, h] at hagain
  exact congrArg Cursor.position (Prod.mk.inj (Except.ok.inj hagain)).2

/-- Taking something else first moves the field back. -/
theorem AimsAt.bind {r : ByteReader α} {f : α → ByteReader Meaning} {a : α} {taken : List UInt8}
    (hat : AimsAt (f a) d e m o front field back) (hunread : c.unread = taken ++ d.unread)
    (hposition : d.position = c.position + taken.length)
    (hagain : ∀ other, r.run ⟨taken ++ (front ++ other), c.position⟩ =
      .ok (a, ⟨front ++ other, d.position⟩)) :
    AimsAt (r >>= f) c e m o (taken ++ front) field back where
  unread_eq := by rw [hunread, hat.unread_eq, List.append_assoc]
  alone := hat.alone
  offset_eq := by rw [hat.offset_eq, hposition, List.length_append, Nat.add_assoc]
  width_eq := hat.width_eq
  width_mem := hat.width_mem
  run_eq := by
    intro other rest hlen
    rw [List.append_assoc, run_bind_of_ok (hagain _), hat.run_eq other rest hlen, hposition,
      List.length_append]
    simp only [Nat.add_assoc]

/-- A reader may look one byte ahead if the field comes later. -/
theorem Aims.ahead {n : Nat} {r : ByteReader α} {f : α → ByteReader Meaning} (hr : Ahead r)
    (hf : ∀ a, Aims (n + 1) (f a)) : Aims (n + 1) (r >>= f) := by
  intro c e m h o ho hrelative
  obtain ⟨a, d, hrun, hrest⟩ := run_bind_ok h
  obtain ⟨taken, hc, hd, hagain⟩ := hr.run hrun
  obtain ⟨front, field, back, hfront, hat⟩ := hf a hrest o ho hrelative
  refine ⟨taken ++ front, field, back, ?_, hat.bind (by rw [hc]) (by rw [hd]) fun other => ?_⟩
  · rw [List.length_append]
    omega
  · have hhead : (front ++ other).head? = d.unread.head? := by
      rw [hat.unread_eq, List.head?_append, List.head?_append]
      cases front with
      | nil => cases hfront
      | cons b rest => rfl
    rw [hagain _ hhead, hd]

theorem Aims.steady {k n : Nat} {r : ByteReader α} {f : α → ByteReader Meaning} (hr : Steady r)
    (hk : Takes k r) (hf : ∀ a, Aims n (f a)) : Aims (k + n) (r >>= f) := by
  intro c e m h o ho hrelative
  obtain ⟨a, d, hrun, hrest⟩ := run_bind_ok h
  obtain ⟨taken, hc, hd, hagain⟩ := hr.run hrun
  obtain ⟨i, hi, -, hd'⟩ := hk hrun
  obtain ⟨front, field, back, hfront, hat⟩ := hf a hrest o ho hrelative
  refine ⟨taken ++ front, field, back, ?_, hat.bind (by rw [hc]) (by rw [hd]) fun other => ?_⟩
  · have hlen : c.position + taken.length = c.position + i := by
      rw [hd'] at hd
      exact (congrArg Cursor.position hd).symm
    rw [List.length_append]
    omega
  · rw [hagain, hd]

theorem Aims.byte {f : Nat → ByteReader Meaning} (hf : ∀ b, Aims 0 (f b)) :
    Aims 1 (byte >>= f) :=
  .steady steady_byte takes_byte hf

section ModRm

variable {mem : MemoryRef} {rex : Rex} {addressSize width mode rm : Nat}
  {relativeToEnd forceRegister : Bool}

theorem run_byte (b : UInt8) (rest : List UInt8) (position : Nat) :
    byte.run ⟨b :: rest, position⟩ = .ok (b.toNat, ⟨rest, position + 1⟩) := rfl

theorem run_byte_ok {n : Nat} (h : byte.run c = .ok (n, d)) :
    ∃ b rest, c = ⟨b :: rest, c.position⟩ ∧ n = b.toNat ∧ d = ⟨rest, c.position + 1⟩ := by
  obtain ⟨bytes, position⟩ := c
  cases bytes with
  | nil => cases h
  | cons b rest =>
      rw [run_byte] at h
      cases h
      exact ⟨b, rest, rfl, rfl, rfl⟩

theorem run_signed (bytes rest : List UInt8) (position : Nat) :
    (signed bytes.length).run ⟨bytes ++ rest, position⟩ =
      .ok ((signedValue bytes, position), ⟨rest, position + bytes.length⟩) :=
  run_bind_of_ok (run_field bytes rest position)

theorem run_displaced (mem : MemoryRef) (bytes rest : List UInt8) (position : Nat)
    (h : bytes.length ≠ 0) : (displaced mem bytes.length).run ⟨bytes ++ rest, position⟩ =
      .ok (Operand.memory mem (signedValue bytes) position bytes.length,
        ⟨rest, position + bytes.length⟩) := by
  rw [displaced, if_neg h, run_bind_of_ok (run_signed bytes rest position)]
  rfl

theorem kind_of_displaced (h : (displaced mem width).run c = .ok (o, d)) :
    o.kind = .memory mem := by
  unfold displaced at h
  split at h
  · cases h
    rfl
  · obtain ⟨_, _, -, h⟩ := run_bind_ok h
    cases h
    rfl

theorem relativeToEnd_of_displaced (h : (displaced mem width).run c = .ok (o, d))
    (ho : o.isRelative = true) : mem.relativeToEnd = true := by
  rwa [Operand.isRelative, kind_of_displaced h] at ho

theorem relativeToEnd_pairOf (mode rm : Nat) : (pairOf mode rm).relativeToEnd = false := by
  unfold pairOf
  split <;> try rfl
  split <;> rfl

/-- Only one form of an address is relative. -/
theorem address_relative (h : (address rex addressSize relativeToEnd mode rm).run c = .ok (o, d))
    (ho : o.isRelative = true) : rm = 5 ∧ mode = 0 := by
  unfold address at h
  dsimp only at h
  split at h
  · obtain ⟨sib, e, -, h⟩ := run_bind_ok h
    split at h
    · have hrelative := relativeToEnd_of_displaced h ho
      split at hrelative <;> cases hrelative
    · have hrelative := relativeToEnd_of_displaced h ho
      dsimp only at hrelative
      split at hrelative <;> cases hrelative
  · split at h
    · assumption
    · cases relativeToEnd_of_displaced h ho

theorem address_of_relative (rex : Rex) (addressSize : Nat) (relativeToEnd : Bool) :
    address rex addressSize relativeToEnd 0 5 = displaced { relativeToEnd := relativeToEnd } 4 :=
  rfl

/-- The ModRM byte of an address relative to the end of the instruction. -/
def IsRelativeForm (b : UInt8) : Prop := b.toNat / 64 = 0 ∧ b.toNat % 8 = 5

/-- What is read from it and a displacement that lies at `position`. -/
def relativeModRm (rex : Rex) (b : UInt8) (v : Int) (position : Nat) : ModRm :=
  ⟨b.toNat, b.toNat / 8 % 8 + Rex.extension rex.r, 5 + Rex.extension rex.b,
    some (Operand.memory { relativeToEnd := true } v position 4)⟩

theorem aim_relativeModRm (b : UInt8) (u v : Int) (position : Nat) :
    (relativeModRm rex b u position).aim v = relativeModRm rex b v position := rfl

theorem run_modRm_relative (rex : Rex) {b : UInt8} {bytes : List UInt8} (hb : IsRelativeForm b)
    (hsize : addressSize ≠ 2) (hlen : bytes.length = 4) (rest : List UInt8) (position : Nat) :
    (modRm rex addressSize true false).run ⟨b :: (bytes ++ rest), position⟩ =
      .ok (relativeModRm rex b (signedValue bytes) (position + 1), ⟨rest, position + 5⟩) := by
  have hdisplaced := run_displaced { relativeToEnd := true } bytes rest (position + 1) (by omega)
  rw [hlen] at hdisplaced
  rw [modRm, run_bind_of_ok (run_byte ..)]
  dsimp only
  rw [hb.1, hb.2, if_neg (by decide), if_neg hsize, address_of_relative,
    run_bind_of_ok hdisplaced]
  rfl

/-- Nothing else gives a relative operand in memory. -/
theorem modRm_relative {m : ModRm}
    (h : (modRm rex addressSize relativeToEnd forceRegister).run c = .ok (m, d))
    (hm : m.memory = some o) (ho : o.isRelative = true) :
    ∃ b field, IsRelativeForm b ∧ addressSize ≠ 2 ∧ relativeToEnd = true ∧
      forceRegister = false ∧ field.length = 4 ∧ c.unread = b :: (field ++ d.unread) := by
  obtain ⟨n, e, hbyte, h⟩ := run_bind_ok h
  obtain ⟨b, behind, hc, rfl, rfl⟩ := run_byte_ok hbyte
  dsimp only at h
  by_cases hregister : b.toNat / 64 = 3 ∨ forceRegister = true
  · rw [if_pos hregister] at h
    cases h
    cases hm
  · rw [if_neg hregister] at h
    by_cases hsize : addressSize = 2
    · rw [if_pos hsize] at h
      obtain ⟨memory, e, hmemory, h⟩ := run_bind_ok h
      cases h
      cases hm
      have hrelative := relativeToEnd_of_displaced hmemory ho
      rw [relativeToEnd_pairOf] at hrelative
      cases hrelative
    · rw [if_neg hsize] at h
      obtain ⟨memory, e, hmemory, h⟩ := run_bind_ok h
      cases h
      cases hm
      obtain ⟨hrm, hmode⟩ := address_relative hmemory ho
      rw [hrm, hmode, address_of_relative] at hmemory
      have hrelative := relativeToEnd_of_displaced hmemory ho
      rw [displaced, if_neg (by decide)] at hmemory
      obtain ⟨_, e, hsigned, hmemory⟩ := run_bind_ok hmemory
      obtain ⟨⟨field, place⟩, e, hfield, hsigned⟩ := run_bind_ok hsigned
      cases hsigned
      cases hmemory
      obtain ⟨hlen, -, hunread, -⟩ := run_field_ok hfield
      have hforce : forceRegister = false := by simpa using (not_or.mp hregister).2
      refine ⟨b, field, ⟨hmode, hrm⟩, hsize, hrelative, hforce, hlen, ?_⟩
      rw [hc, ← hunread]

/-- What is read behind ModRM passes its memory operand on: it does not look at the displacement,
and gives no relative operand but that one. -/
structure PassesOn (g : ModRm → ByteReader Meaning) : Prop where
  steady : ∀ m, Steady (g m)
  aim_eq : ∀ m v, g (m.aim v) = Meaning.aim v <$> g m
  sublist : ∀ ⦃m c e x⦄, (g m).run c = .ok (x, e) →
    (x.operands.filter Operand.isRelative).Sublist m.memory.toList

/-- A relative operand is the one in memory, and there is no other. -/
theorem PassesOn.alone {g : ModRm → ByteReader Meaning} (hg : PassesOn g) {m : ModRm} {x : Meaning}
    (h : (g m).run c = .ok (x, e)) (ho : o ∈ x.operands) (hrelative : o.isRelative = true) :
    m.memory = some o ∧ x.operands.filter Operand.isRelative = [o] := by
  have hmem : o ∈ x.operands.filter Operand.isRelative := List.mem_filter.mpr ⟨ho, hrelative⟩
  have hsub := hg.sublist h
  have hmemory : m.memory = some o := by simpa using hsub.subset hmem
  rw [hmemory] at hsub
  rcases List.sublist_singleton.mp hsub with hnil | halone
  · rw [hnil] at hmem
    cases hmem
  · exact ⟨hmemory, halone⟩

/-- The displacement of a relative operand in memory comes right behind ModRM. What is behind it
depends on the displacement only through the operand. -/
theorem aims_modRm {g : ModRm → ByteReader Meaning} (hg : PassesOn g) :
    Aims 1 (modRm rex addressSize relativeToEnd forceRegister >>= g) := by
  intro c e x h o ho hrelative
  obtain ⟨m, d, hmodRm, hbehind⟩ := run_bind_ok h
  obtain ⟨hmemory, halone⟩ := hg.alone hbehind ho hrelative
  obtain ⟨b, field, hb, hsize, rfl, rfl, hlen, hunread⟩ := modRm_relative hmodRm hmemory hrelative
  have hrun {bytes : List UInt8} (hbytes : bytes.length = 4) (rest : List UInt8) :=
    run_modRm_relative rex hb hsize hbytes rest c.position
  -- the run at hand is one of these, and tells which ModRM was read
  have hfirst := hrun hlen d.unread
  rw [← hunread, show (⟨c.unread, c.position⟩ : Cursor) = c from rfl, hmodRm] at hfirst
  obtain ⟨rfl, hd⟩ := Prod.mk.inj (Except.ok.inj hfirst)
  cases hmemory
  obtain ⟨back, hback, -, hagain⟩ := (hg.steady _).run hbehind
  refine ⟨[b], field, back, Nat.le_refl _, ?_, halone, rfl, hlen.symm,
    (by decide : 4 ∈ [1, 2, 4]), ?_⟩
  · rw [hunread, hback]
    rfl
  · intro other rest hother
    rw [List.singleton_append, run_bind_of_ok (hrun (hother.trans hlen) _), ← aim_relativeModRm,
      hg.aim_eq]
    rw [hd] at hagain
    rw [run_map_of_ok (hagain rest), hlen, List.length_singleton, ← Nat.add_assoc 1, Nat.add_assoc]

end ModRm

theorem run_branch (bytes rest : List UInt8) (position : Nat) :
    (branch bytes.length).run ⟨bytes ++ rest, position⟩ =
      .ok (Operand.relative (signedValue bytes) position bytes.length,
        ⟨rest, position + bytes.length⟩) := by
  rw [branch, run_bind_of_ok (run_signed bytes rest position)]
  rfl

/-- A branch has its displacement right in front. -/
theorem aims_branch {width : Nat} (hwidth : width ∈ [1, 2, 4]) (w : Width) (s : OpcodeSpec)
    (mnemonic : String) (count : RegSet × RegSet) :
    Aims 0 (branch width >>= fun o => pure (meaningOf w s mnemonic count [o])) := by
  intro c e m h o ho hrelative
  obtain ⟨target, d, hbranch, h⟩ := run_bind_ok h
  cases h
  obtain ⟨⟨value, offset⟩, d, hsigned, h⟩ := run_bind_ok hbranch
  cases h
  obtain ⟨⟨field, place⟩, d, hfield, h⟩ := run_bind_ok hsigned
  cases h
  obtain ⟨rfl, rfl, hunread, hd⟩ := run_field_ok hfield
  obtain rfl := List.mem_singleton.mp ho
  refine ⟨[], field, [], Nat.le_refl _, hunread, rfl, rfl, rfl, hwidth, ?_⟩
  intro other rest hother
  have hrun := run_branch other rest c.position
  rw [hother] at hrun
  rw [List.nil_append, List.nil_append, run_bind_of_ok hrun, ← meaningOf_aim]
  simp only [List.length_nil, Nat.add_zero, Nat.zero_add]
  rfl

section Tail

variable {w : Width} {p : Prefixes} {rex : Rex} {spec : OpcodeSpec} {map : OpcodeMap} {opcode : Nat}

/-- What is behind ModRM are the operands of the completed entry. -/
theorem behindModRm_eq (w : Width) (p : Prefixes) (rex : Rex) (spec : OpcodeSpec)
    (map : OpcodeMap) (opcode : Nat) (modRm? : Option ModRm) :
    behindModRm w p rex spec map opcode modRm? = reject ∨
      ∃ l s mnemonic count, l.Sized ∧
        behindModRm w p rex spec map opcode modRm? =
          (completeSpec spec modRm?).operands.mapM (operand l modRm?) >>= fun os =>
            pure (meaningOf w s mnemonic count os) := by
  unfold behindModRm
  dsimp only
  split
  · exact .inl rfl
  · split <;> exact .inr ⟨_, _, _, _, ⟨operandSize_mem .., addressSize_mem ..⟩, rfl⟩

theorem aim_behindModRm {m : ModRm} {v : Int}
    (h : (completeSpec spec (some m)).operands.any Template.isBranch = false) :
    behindModRm w p rex spec map opcode (some (m.aim v)) =
      Meaning.aim v <$> behindModRm w p rex spec map opcode (some m) := by
  unfold behindModRm
  rw [completeSpec_aim]
  dsimp only
  split
  · rfl
  · rw [mapM_aim (by split <;> exact h)]
    simp only [map_eq_pure_bind, bind_assoc, pure_bind, meaningOf_aim]
    rfl

theorem sublist_toList {as : List α} {a? : Option α} (hlen : as.length ≤ 1)
    (hmem : ∀ a ∈ as, a? = some a) : as.Sublist a?.toList := by
  match as with
  | [] => exact List.nil_sublist _
  | [a] =>
      rw [hmem a List.mem_cons_self]
      exact List.Sublist.refl _
  | _ :: _ :: _ => simp at hlen

theorem passesOn_behindModRm (h : OpcodeSpec.NamesRmOnce spec.operands) :
    PassesOn fun m => behindModRm w p rex spec map opcode (some m) where
  steady m := steady_behindModRm w p rex spec map opcode (some m)
  aim_eq m v := aim_behindModRm (namesRmOnce_completeSpec h m).1
  sublist := by
    intro m c e x hrun
    obtain ⟨hbranch, honce⟩ := namesRmOnce_completeSpec h m
    rcases behindModRm_eq w p rex spec map opcode (some m) with
      heq | ⟨l, s, mnemonic, count, -, heq⟩
    · rw [heq] at hrun
      cases hrun
    · rw [heq] at hrun
      obtain ⟨os, d, hos, hrun⟩ := run_bind_ok hrun
      cases hrun
      obtain ⟨hlen, hmem⟩ := mapM_relative hos hbranch
      exact sublist_toList (Nat.le_trans hlen honce) hmem

/-- Behind an opcode without ModRM. -/
theorem aims_behindModRm_none (h : spec.HasOneField) (hneeds : spec.needsModRm = false) :
    Aims 0 (behindModRm w p rex spec map opcode none) := by
  rcases behindModRm_eq w p rex spec map opcode none with heq | ⟨l, s, mnemonic, count, -, heq⟩
  · rw [heq]
    exact aims_reject 0
  · rw [heq, completeSpec_none]
    cases hbranch : spec.operands.any Template.isBranch with
    | true =>
        obtain ⟨t, ht⟩ := List.length_eq_one_iff.mp (h.branch_alone hneeds hbranch)
        rw [ht, List.any_cons, List.any_nil, Bool.or_false] at hbranch
        obtain ⟨width, hwidth, hoperand⟩ := operand_branch l none hbranch
        rw [ht, List.mapM_cons, hoperand, bind_assoc]
        simp only [List.mapM_nil, pure_bind]
        exact aims_branch hwidth w s mnemonic count
    | false =>
        refine aims_of_forall_not fun c e m hrun o ho => ?_
        obtain ⟨os, d, hos, hrun⟩ := run_bind_ok hrun
        cases hrun
        obtain ⟨-, hmem⟩ := mapM_relative hos hbranch
        cases hrelative : o.isRelative with
        | false => rfl
        | true => cases hmem o (List.mem_filter.mpr ⟨ho, hrelative⟩)

theorem aims_tail_modRm (h : spec.HasOneField) (hneeds : spec.needsModRm = true) :
    Aims 1 (tail w p rex spec map opcode) := by
  rw [tail, if_pos hneeds, bind_map_left]
  exact aims_modRm (passesOn_behindModRm (h.rm_once hneeds))

theorem aims_tail (h : spec.HasOneField) : Aims 0 (tail w p rex spec map opcode) := by
  cases hneeds : spec.needsModRm with
  | true => exact (aims_tail_modRm h hneeds).zero
  | false =>
      rw [tail, if_neg (by simp [hneeds]), pure_bind]
      exact aims_behindModRm_none h hneeds

theorem aims_floatTail (w : Width) (p : Prefixes) (rex : Rex) (opcode : Nat) :
    Aims 1 (floatTail w p rex opcode) := by
  refine .ahead ahead_peek fun modRmByte => aims_modRm ⟨fun m => ?_, fun m v => ?_, ?_⟩
  · split
    · exact steady_reject
    · exact steady_pure _
  · split
    · rfl
    · rw [ModRm.memoryRef_aim, map_pure, Meaning.aim, ModRm.aim, Option.toList_map]
  · intro m c e x hrun
    split at hrun <;> cases hrun
    exact List.filter_sublist

theorem aims_vectorTail (w : Width) (h : VectorHead) : Aims 0 (vectorTail w h) := by
  unfold vectorTail
  split
  · refine aims_of_forall_not fun c e m hrun o ho => ?_
    cases hrun
    cases ho
  · refine (aims_modRm ⟨fun m => ?_, fun m v => ?_, ?_⟩).zero
    · split
      · exact (steady_signedImmediate 1).bind fun _ => steady_pure _
      · exact steady_pure _
    · rw [meaning_aim]
      split
      · -- the immediate is not relative, so aiming leaves it as it is
        conv =>
          lhs
          rw [← (neverRelative_signedImmediate 1).map_aim v]
        rw [bind_map_left, map_bind]
        simp only [map_pure, Meaning.aim, List.map_append, List.map_singleton]
      · rfl
    · intro m c e x hrun
      split at hrun
      · obtain ⟨immediate, d, himmediate, hrun⟩ := run_bind_ok hrun
        cases hrun
        rw [List.filter_append, List.filter_cons_of_neg
          (by simp [neverRelative_signedImmediate 1 himmediate]), List.filter_nil, List.append_nil]
        exact relative_meaning h w m
      · cases hrun
        exact relative_meaning h w m

theorem aims_vex (w : Width) (lead : Nat) : Aims 1 (vex w lead) := by
  refine .byte fun first => ?_
  dsimp only
  split
  · rw [pure_bind]
    split
    · exact aims_reject 0
    · exact (Aims.byte fun opcode => aims_vectorTail _ _).zero
  · simp only [pure_bind]
    refine (Aims.byte fun second => ?_).zero
    split
    · exact aims_reject 0
    · exact (Aims.byte fun opcode => aims_vectorTail _ _).zero

theorem aims_evex (w : Width) : Aims 1 (evex w) := by
  refine .byte fun first => ?_
  refine (Aims.byte fun second => ?_).zero
  refine (Aims.byte fun _ => ?_).zero
  dsimp only
  split
  · exact aims_reject 0
  · split
    · exact aims_reject 0
    · exact (Aims.byte fun opcode => aims_vectorTail _ _).zero

/-- The tail of an opcode of more bytes. -/
theorem aims_longTail {f : Nat → OpcodeSpec} (hf : ∀ opcode, (f opcode).HasOneField) :
    Aims 1 (byte >>= fun opcode => tail w p rex (f opcode) map opcode) :=
  .byte fun opcode => aims_tail (hf opcode)

theorem aims_escape (w : Width) (p : Prefixes) (rex : Rex) :
    Aims 1 (byte >>= fun second =>
      if second = 0x38 then
        byte >>= fun third => tail w p rex (threeByteSpec38 p third) .threeByte third
      else if second = 0x3a then
        byte >>= fun third => tail w p rex (threeByteSpec3a third) .threeByte third
      else tail w p rex (twoByteSpec p second) .twoByte second) := by
  refine .byte fun second => ?_
  split
  · exact (aims_longTail (hasOneField_threeByteSpec38 p)).zero
  · split
    · exact (aims_longTail hasOneField_threeByteSpec3a).zero
    · exact aims_tail (hasOneField_twoByteSpec p second)

theorem aims_instruction (w : Width) : Aims 1 (instruction w) := by
  refine .ahead ahead_prefixes fun p => .ahead (ahead_rexByte w) fun rex => .byte fun opcode => ?_
  by_cases hlead : opcode = 0xc4 ∨ opcode = 0xc5 ∨ opcode = 0x62
  -- the byte that is looked at is ModRM or belongs to the extension, so no field begins with it
  · refine (Aims.ahead (n := 0) (ahead_startsVector w opcode) fun isVector => ?_).zero
    dsimp only
    split
    · split <;> split
      · exact aims_reject 1
      · exact aims_reject 1
      · exact aims_evex w
      · exact aims_vex w opcode
    · rw [if_neg (by omega), if_neg (by omega)]
      exact aims_tail_modRm (hasOneField_oneByteSpec ..) (needsModRm_vectorLead hlead w p rex)
  · rw [startsVector, if_neg hlead, pure_bind]
    dsimp only
    rw [if_neg Bool.false_ne_true]
    split
    · exact (aims_floatTail w p rex opcode).zero
    · split
      · exact (aims_escape w p rex).zero
      · exact aims_tail (hasOneField_oneByteSpec ..)

end Tail

end BinTrace.Decode.ByteReader
