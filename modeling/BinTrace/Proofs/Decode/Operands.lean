import BinTrace.Proofs.Decode.Aim
import BinTrace.Proofs.Decode.PrefixFree

/-!
What operands say of the bytes of their instruction. The bytes are passed over once, and an operand
that is read on the way keeps the place and the number of its field. The displacement of a memory
operand is read with ModRM, before the operands are made, so it lies in front of all other fields;
and as no entry of the opcode maps names the r/m field twice, it belongs to one operand only.
-/

namespace BinTrace

open LittleEndian (value signedValue)

namespace Operand

variable {o o' : Operand}

/-- The byte belongs to the operand's field. -/
def Covers (o : Operand) (k : Nat) : Prop := o.offset ≤ k ∧ k < o.offset + o.width

/-- The fields have no byte in common. -/
def Apart (o o' : Operand) : Prop := ∀ k, o.Covers k → ¬o'.Covers k

theorem Apart.symm (h : o.Apart o') : o'.Apart o := fun k hk hk' => h k hk' hk

theorem apart_of_le (h : o.offset + o.width ≤ o'.offset) : o.Apart o' :=
  fun _ hk hk' => absurd (Nat.lt_of_lt_of_le hk.2 (h.trans hk'.1)) (Nat.lt_irrefl _)

theorem apart_of_width (h : o.width = 0) : o.Apart o' :=
  fun _ hk => absurd hk.2 (by rw [h]; exact Nat.not_lt.mpr hk.1)

end Operand

namespace Decode

/-- The opcodes of `ret`, `enter` and `retf` with a word. -/
def wordOpcodes : List Nat := [0xc2, 0xc8, 0xca]

/-- The opcodes of far pointers and of memory at an offset that the instruction holds in full. -/
def offsetOpcodes : List Nat := [0x9a, 0xa0, 0xa1, 0xa2, 0xa3, 0xea]

/-- Behind this opcode a field of this width has no sign. -/
def LacksSign (opcode width : Nat) : Prop :=
  opcode ∈ wordOpcodes ∧ width = 2 ∨ opcode ∈ offsetOpcodes

instance (opcode width : Nat) : Decidable (LacksSign opcode width) :=
  inferInstanceAs (Decidable (_ ∨ _))

/-- The number that a field stands for, extended to the 64 bits of a value by its sign or by zeros.
A field of eight bytes is not extended. -/
def fieldValue (opcode : Nat) (field : List UInt8) : Int :=
  if LacksSign opcode field.length ∧ field.length < 8 then value field else signedValue field

end Decode

namespace Template

/-- The widths of the field that an operand of its own has. -/
def fieldWidths : Template → List Nat
  | .ib | .jb => [1]
  | .iw => [2]
  | .iz | .jz | .ap => [2, 4]
  | .iv | .ob | .ov => [2, 4, 8]
  | _ => []

def isUnsigned : Template → Bool
  | .iw | .ob | .ov | .ap => true
  | _ => false

/-- The template takes the sign of its field as the opcode says. -/
def Suits (opcode : Nat) (t : Template) : Prop :=
  ∀ width ∈ t.fieldWidths, t.isUnsigned = true ↔ Decode.LacksSign opcode width

instance (opcode : Nat) : DecidablePred (Suits opcode) :=
  fun t => inferInstanceAs (Decidable (∀ width ∈ t.fieldWidths, _))

theorem suits_of_not {opcode : Nat} {t : Template} (hopcode : ∀ width, ¬Decode.LacksSign opcode width)
    (ht : t.isUnsigned = false) : t.Suits opcode :=
  fun width _ => iff_of_false (by simp [ht]) (hopcode width)

end Template

namespace Opcode

theorem isUnsigned_groupMember (g : Group) : ∀ reg < 8, ∀ registerForm, ∀ rm < 8,
    (groupMember g reg registerForm rm).operands.any Template.isUnsigned = false := by
  cases g <;> decide +kernel

end Opcode

namespace OpcodeSpec

/-- The entry stands behind an opcode that says which of its fields have a sign. With ModRM all of
them do. -/
structure Suits (opcode : Nat) (s : OpcodeSpec) : Prop where
  operands : ∀ t ∈ s.operands, t.Suits opcode
  signed : s.needsModRm = true → opcode ∉ Decode.wordOpcodes ++ Decode.offsetOpcodes

instance (opcode : Nat) (s : OpcodeSpec) : Decidable (s.Suits opcode) :=
  decidable_of_iff
    ((∀ t ∈ s.operands, t.Suits opcode) ∧
      (s.needsModRm = true → opcode ∉ Decode.wordOpcodes ++ Decode.offsetOpcodes))
    ⟨fun h => ⟨h.1, h.2⟩, fun h => ⟨h.operands, h.signed⟩⟩

theorem Suits.renamed {opcode : Nat} {s : OpcodeSpec} (h : s.Suits opcode) (mnemonic : String) :
    Suits opcode { s with mnemonic } :=
  ⟨h.operands, h.signed⟩

theorem suits_of_bare {s : OpcodeSpec} (hoperands : s.operands = []) (hgroup : s.group = none)
    (opcode : Nat) : s.Suits opcode :=
  ⟨by simp [hoperands], by simp [needsModRm, hoperands, hgroup]⟩

end OpcodeSpec

namespace Decode

/-! ### The opcode maps -/

theorem not_lacksSign {opcode : Nat} (h : opcode ∉ wordOpcodes ++ offsetOpcodes) (width : Nat) :
    ¬LacksSign opcode width := by
  rw [List.mem_append, not_or] at h
  rintro (⟨hword, -⟩ | hoffset)
  · exact h.1 hword
  · exact h.2 hoffset

theorem suits_oneByte (opcode : Nat) : (Opcode.oneByte opcode).Suits opcode := by
  have hmap : ∀ e ∈ Opcode.oneByteMap.toList.zipIdx, e.1.Suits e.2 := by decide +kernel
  rw [Opcode.oneByte]
  cases hs : Opcode.oneByteMap[opcode]? with
  | none => exact OpcodeSpec.suits_of_bare rfl rfl opcode
  | some s =>
      refine hmap (s, opcode) (List.mk_mem_zipIdx_iff_getElem?.mpr ?_)
      rwa [Array.getElem?_toList]

theorem suits_oneByteSpec (w : Width) (p : Prefixes) (rex : Rex) (opcode : Nat) :
    (oneByteSpec w p rex opcode).Suits opcode := by
  unfold oneByteSpec
  split
  · rename_i h
    rw [h.1]
    decide
  · split
    · rename_i h
      rw [h.1]
      decide
    · split
      · exact OpcodeSpec.suits_of_bare rfl rfl opcode
      · exact suits_oneByte opcode

/-- Behind the escape byte all fields have a sign. -/
theorem suits_twoByteSpec (p : Prefixes) (opcode : Nat) : (twoByteSpec p opcode).Suits 0x0f := by
  have hmap : ∀ s ∈ Opcode.twoByteMap.toList, s.Suits 0x0f := by decide +kernel
  exact forall_twoByteSpec hmap (fun _ => .renamed) (by decide) (by decide) p opcode

theorem suits_threeByteSpec38 (p : Prefixes) (opcode : Nat) :
    (threeByteSpec38 p opcode).Suits 0x0f := by
  unfold threeByteSpec38
  dsimp only
  repeat' split
  all_goals decide

theorem suits_threeByteSpec3a (opcode : Nat) : (threeByteSpec3a opcode).Suits 0x0f := by
  unfold threeByteSpec3a
  repeat' split
  all_goals decide

/-- The templates that take their place in a group have signed fields, as those with ModRM have. -/
theorem suits_completeSpec {s : OpcodeSpec} {opcode : Nat} (h : s.Suits opcode)
    (hneeds : s.needsModRm = true) (m : ModRm) :
    ∀ t ∈ (completeSpec s (some m)).operands, t.Suits opcode := by
  unfold completeSpec
  cases s.group with
  | none => exact h.operands
  | some g =>
      dsimp only [OpcodeSpec.complete]
      split
      · exact h.operands
      · have hmember := Opcode.isUnsigned_groupMember g _ (Nat.mod_lt (m.byte / 8) (by decide))
          m.isRegister _ (Nat.mod_lt m.byte (by decide))
        exact fun t ht => Template.suits_of_not (not_lacksSign (h.signed hneeds))
          (by simpa using List.any_eq_false.mp hmember t ht)

namespace ByteReader

variable {α : Type} {c d e : Cursor} {o : Operand} {opcode width : Nat} {field : List UInt8}

/-! ### Fields between two places of the reading -/

/-- These bytes lie between the cursors. -/
structure Passes (c d : Cursor) (taken : List UInt8) : Prop where
  unread_eq : c.unread = taken ++ d.unread
  position_eq : d.position = c.position + taken.length

theorem Passes.trans {first second : List UInt8} (h : Passes c d first) (h' : Passes d e second) :
    Passes c e (first ++ second) where
  unread_eq := by rw [h.unread_eq, h'.unread_eq, List.append_assoc]
  position_eq := by rw [h'.position_eq, h.position_eq, List.length_append, Nat.add_assoc]

theorem Takes.passes {r : ByteReader α} {a : α} {n : Nat} (hr : Takes n r)
    (h : r.run c = .ok (a, d)) : ∃ taken, Passes c d taken := by
  obtain ⟨k, -, hle, rfl⟩ := hr h
  exact ⟨c.unread.take k, (List.take_append_drop k _).symm, by rw [List.length_take_of_le hle]⟩

theorem passes_field {bytes : List UInt8} {position : Nat}
    (h : (ByteReader.field width).run c = .ok ((bytes, position), d)) :
    Passes c d bytes ∧ position = c.position ∧ bytes.length = width := by
  obtain ⟨hwidth, hplace, hunread, hposition⟩ := run_field_ok h
  exact ⟨⟨hunread, by rw [hposition, hwidth]⟩, hplace, hwidth⟩

/-- The operand names a field between the cursors, and its value is the number there. -/
def TellsField (opcode : Nat) (c d : Cursor) (o : Operand) : Prop :=
  ∃ front field back, Passes c d (front ++ field ++ back) ∧
    o.offset = c.position + front.length ∧ o.width = field.length ∧
    o.value = fieldValue opcode field

theorem TellsField.after {taken : List UInt8} (h : TellsField opcode d e o)
    (hpass : Passes c d taken) : TellsField opcode c e o := by
  obtain ⟨front, field, back, hfield, hoffset, hwidth, hvalue⟩ := h
  refine ⟨taken ++ front, field, back, ?_, ?_, hwidth, hvalue⟩
  · simpa only [List.append_assoc] using hpass.trans hfield
  · rw [hoffset, hpass.position_eq, List.length_append, Nat.add_assoc]

theorem TellsField.before {taken : List UInt8} (h : TellsField opcode c d o)
    (hpass : Passes d e taken) : TellsField opcode c e o := by
  obtain ⟨front, field, back, hfield, hoffset, hwidth, hvalue⟩ := h
  refine ⟨front, field, back ++ taken, ?_, hoffset, hwidth, hvalue⟩
  simpa only [List.append_assoc] using hfield.trans hpass

theorem TellsField.bounds (h : TellsField opcode c d o) :
    c.position ≤ o.offset ∧ o.offset + o.width ≤ d.position := by
  obtain ⟨front, field, back, hfield, hoffset, hwidth, -⟩ := h
  rw [hoffset, hwidth, hfield.position_eq, List.length_append, List.length_append]
  omega

/-- A field that was read as a number with a sign. -/
theorem tellsField_signed {v : Int} {place : Nat}
    (h : (signed width).run c = .ok ((v, place), d)) (hsign : ¬LacksSign opcode width)
    (k : OperandKind) : TellsField opcode c d ⟨k, v, place, width⟩ := by
  obtain ⟨⟨bytes, position⟩, e, hfield, h⟩ := run_bind_ok h
  cases h
  obtain ⟨hpass, rfl, rfl⟩ := passes_field hfield
  refine ⟨[], bytes, [], by simpa using hpass, rfl, rfl, ?_⟩
  rw [fieldValue, if_neg fun h => hsign h.1]

theorem tellsField_unsigned {v : Int} {place : Nat}
    (h : (unsigned width).run c = .ok ((v, place), d)) (hsign : LacksSign opcode width)
    (hwidth : width ≤ 8) (k : OperandKind) : TellsField opcode c d ⟨k, v, place, width⟩ := by
  obtain ⟨⟨bytes, position⟩, e, hfield, h⟩ := run_bind_ok h
  obtain ⟨hread, rfl⟩ := Prod.mk.inj (Except.ok.inj h)
  obtain ⟨rfl, rfl⟩ := Prod.mk.inj hread
  obtain ⟨hpass, rfl, rfl⟩ := passes_field hfield
  refine ⟨[], bytes, [], by simpa using hpass, rfl, rfl, ?_⟩
  rw [fieldValue]
  rcases Nat.lt_or_eq_of_le hwidth with hlt | heq
  · have hvalue : value bytes < 256 ^ 7 := (LittleEndian.value_lt bytes).trans_le
      (Nat.pow_le_pow_right (by decide) (Nat.le_of_lt_succ hlt))
    have hspace : 2 * 256 ^ 7 ≤ addressSpace := by decide
    generalize addressSpace = space at hspace
    rw [if_pos ⟨hsign, hlt⟩]
    exact Int.bmod_eq_of_le_mul_two (by omega) (by omega)
  · have hspace : addressSpace = 256 ^ 8 := by decide
    rw [if_neg fun h => absurd h.2 (by omega), signedValue, heq, hspace]

/-- The displacement of a memory operand lies behind ModRM. -/
theorem tellsField_displaced {mem : MemoryRef} (h : (displaced mem width).run c = .ok (o, d))
    (hsign : ∀ n, ¬LacksSign opcode n) (hwidth : o.width ≠ 0) : TellsField opcode c d o := by
  unfold displaced at h
  split at h
  · cases h
    exact absurd rfl hwidth
  · obtain ⟨⟨v, place⟩, e, hsigned, h⟩ := run_bind_ok h
    cases h
    exact tellsField_signed hsigned (hsign width) _

theorem tellsField_address {rex : Rex} {addressSize mode rm : Nat} {relativeToEnd : Bool}
    (h : (address rex addressSize relativeToEnd mode rm).run c = .ok (o, d))
    (hsign : ∀ n, ¬LacksSign opcode n) (hwidth : o.width ≠ 0) : TellsField opcode c d o := by
  unfold address at h
  dsimp only at h
  split at h
  · obtain ⟨sib, e, hsib, h⟩ := run_bind_ok h
    obtain ⟨taken, hpass⟩ := takes_byte.passes hsib
    split at h <;> exact (tellsField_displaced h hsign hwidth).after hpass
  · split at h <;> exact tellsField_displaced h hsign hwidth

theorem tellsField_modRm {rex : Rex} {addressSize : Nat} {relativeToEnd forceRegister : Bool}
    {m : ModRm} (h : (modRm rex addressSize relativeToEnd forceRegister).run c = .ok (m, d))
    (hsign : ∀ n, ¬LacksSign opcode n) (ho : m.memory = some o) (hwidth : o.width ≠ 0) :
    TellsField opcode c d o := by
  obtain ⟨b, e, hbyte, h⟩ := run_bind_ok h
  obtain ⟨taken, hpass⟩ := takes_byte.passes hbyte
  dsimp only at h
  split at h
  · cases h
    cases ho
  · split at h
    · obtain ⟨memory, e, hmemory, h⟩ := run_bind_ok h
      cases h
      cases ho
      exact (tellsField_displaced hmemory hsign hwidth).after hpass
    · obtain ⟨memory, e, hmemory, h⟩ := run_bind_ok h
      cases h
      cases ho
      exact (tellsField_address hmemory hsign hwidth).after hpass

theorem tellsField_signedImmediate (h : (signedImmediate width).run c = .ok (o, d))
    (hsign : ¬LacksSign opcode width) : TellsField opcode c d o := by
  obtain ⟨⟨v, place⟩, e, hsigned, h⟩ := run_bind_ok h
  cases h
  exact tellsField_signed hsigned hsign _

theorem tellsField_unsignedImmediate (h : (unsignedImmediate width).run c = .ok (o, d))
    (hsign : LacksSign opcode width) (hwidth : width ≤ 8) : TellsField opcode c d o := by
  obtain ⟨⟨v, place⟩, e, hunsigned, h⟩ := run_bind_ok h
  cases h
  exact tellsField_unsigned hunsigned hsign hwidth _

theorem tellsField_branch (h : (branch width).run c = .ok (o, d))
    (hsign : ¬LacksSign opcode width) : TellsField opcode c d o := by
  obtain ⟨⟨v, place⟩, e, hsigned, h⟩ := run_bind_ok h
  cases h
  exact tellsField_signed hsigned hsign _

theorem tellsField_directMemory (h : (directMemory width).run c = .ok (o, d))
    (hsign : LacksSign opcode width) (hwidth : width ≤ 8) : TellsField opcode c d o := by
  obtain ⟨⟨v, place⟩, e, hunsigned, h⟩ := run_bind_ok h
  cases h
  exact tellsField_unsigned hunsigned hsign hwidth _

/-- The selector behind the offset belongs to no operand. -/
theorem tellsField_farPointer (h : (farPointer width).run c = .ok (o, d))
    (hsign : LacksSign opcode width) (hwidth : width ≤ 8) : TellsField opcode c d o := by
  obtain ⟨⟨v, place⟩, e, hunsigned, h⟩ := run_bind_ok h
  obtain ⟨⟨selector, place'⟩, e', hselector, h⟩ := run_bind_ok h
  cases h
  exact (tellsField_unsigned hunsigned hsign hwidth _).before (passes_field hselector).1

section Templates

variable {l : Layout} {modRm? : Option ModRm} {t : Template} {ts : List Template}
  {os : List Operand}

theorem immediateSize_mem (l : Layout) : l.immediateSize ∈ [2, 4] := by
  unfold Layout.immediateSize
  split <;> decide

theorem branchSize_mem (l : Layout) : l.branchSize ∈ [2, 4] := by
  unfold Layout.branchSize
  split <;> decide

theorem le_of_mem_fieldWidths (h : width ∈ t.fieldWidths) : width ≤ 8 := by
  cases t <;> simp [Template.fieldWidths] at h <;> omega

/-- The operand of the r/m field has a field only if it is in memory. -/
theorem memory_of_width_getD {m : ModRm} {r : Register}
    (h : (m.memory.getD (Operand.ofRegister r)).width ≠ 0) :
    m.memory = some (m.memory.getD (Operand.ofRegister r)) := by
  cases hm : m.memory with
  | none =>
      rw [hm] at h
      exact absurd rfl h
  | some o => rfl

/-- An operand with a field is the one in memory that the r/m field names, or its field was read
just now. -/
theorem tellsField_operand (h : (operand l modRm? t).run c = .ok (o, d)) (hl : l.Sized)
    (ht : t.Suits opcode) (hwidth : o.width ≠ 0) :
    t.namesRm = true ∧ modRm?.bind ModRm.memory = some o ∨ TellsField opcode c d o := by
  have hsigned {n : Nat} (hn : n ∈ t.fieldWidths) (hu : t.isUnsigned = false) :
      ¬LacksSign opcode n := fun hlacks => by simp [(ht n hn).mpr hlacks] at hu
  have hunsigned {n : Nat} (hn : n ∈ t.fieldWidths) (hu : t.isUnsigned = true) :
      LacksSign opcode n ∧ n ≤ 8 := ⟨(ht n hn).mp hu, le_of_mem_fieldWidths hn⟩
  cases t
  case ib => exact .inr (tellsField_signedImmediate h (hsigned List.mem_cons_self rfl))
  case iz => exact .inr (tellsField_signedImmediate h (hsigned (immediateSize_mem l) rfl))
  case iv => exact .inr (tellsField_signedImmediate h (hsigned hl.operandSize_mem rfl))
  case jb => exact .inr (tellsField_branch h (hsigned List.mem_cons_self rfl))
  case jz => exact .inr (tellsField_branch h (hsigned (branchSize_mem l) rfl))
  case iw =>
    obtain ⟨hlacks, hle⟩ := hunsigned (n := 2) List.mem_cons_self rfl
    exact .inr (tellsField_unsignedImmediate h hlacks hle)
  case ob | ov =>
    obtain ⟨hlacks, hle⟩ := hunsigned hl.addressSize_mem rfl
    exact .inr (tellsField_directMemory h hlacks hle)
  case ap =>
    obtain ⟨hlacks, hle⟩ := hunsigned (immediateSize_mem l) rfl
    exact .inr (tellsField_farPointer h hlacks hle)
  case m =>
    cases modRm? with
    | none => cases h
    | some m =>
        simp only [operand] at h
        cases hm : m.memory with
        | none =>
            rw [hm] at h
            cases h
        | some memory =>
            rw [hm] at h
            cases h
            exact .inl ⟨rfl, hm⟩
  case eb | ev | ew | ed | ey | wx =>
    cases modRm? with
    | none => cases h
    | some m =>
        cases h
        exact .inl ⟨rfl, memory_of_width_getD hwidth⟩
  case gb | gv | gw | gy | sw | vx =>
    cases modRm? with
    | none => cases h
    | some m =>
        cases h
        exact absurd rfl hwidth
  all_goals
    cases h
    exact absurd rfl hwidth

/-- Of two operands that are read one after the other each has its field in what was read for it, or
is the one in memory, whose field was read before; and they are not both the one in memory. -/
theorem apart_of_tellsField {memory? : Option Operand} {o' : Operand} {named named' : Prop}
    (hfirst : o.width ≠ 0 → named ∧ memory? = some o ∨ TellsField opcode c d o)
    (hsecond : o'.width ≠ 0 → named' ∧ memory? = some o' ∨ TellsField opcode d e o')
    (honce : named → ¬named') (hle : c.position ≤ d.position)
    (hmemory : ∀ o ∈ memory?, o.width ≠ 0 → o.offset + o.width ≤ c.position) : o.Apart o' := by
  by_cases hwidth : o.width = 0
  · exact Operand.apart_of_width hwidth
  by_cases hwidth' : o'.width = 0
  · exact (Operand.apart_of_width hwidth').symm
  rcases hfirst hwidth, hsecond hwidth' with ⟨⟨hnamed, hmem⟩ | htells, ⟨hnamed', hmem'⟩ | htells'⟩
  · exact absurd hnamed' (honce hnamed)
  · have hfront := hmemory o hmem hwidth
    have hbehind := htells'.bounds
    exact Operand.apart_of_le (by omega)
  · have hfront := hmemory o' hmem' hwidth'
    have hbehind := htells.bounds
    exact (Operand.apart_of_le (by omega)).symm
  · exact Operand.apart_of_le (htells.bounds.2.trans htells'.bounds.1)

/-- The fields of operands follow each other in the order in which they are read, and behind the
displacement that ModRM has, which at most one template names. -/
theorem tellsField_mapM (h : (ts.mapM (operand l modRm?)).run c = .ok (os, d)) (hl : l.Sized)
    (hts : ∀ t ∈ ts, t.Suits opcode) (hnames : ts.countP Template.namesRm ≤ 1)
    (hmemory : ∀ o ∈ modRm?.bind ModRm.memory, o.width ≠ 0 → o.offset + o.width ≤ c.position) :
    (∀ o ∈ os, o.width ≠ 0 →
      0 < ts.countP Template.namesRm ∧ modRm?.bind ModRm.memory = some o ∨
        TellsField opcode c d o) ∧
    os.Pairwise Operand.Apart := by
  induction ts generalizing os c with
  | nil =>
      cases h
      exact ⟨nofun, .nil⟩
  | cons t rest ih =>
      obtain ⟨ht, hrest⟩ := List.forall_mem_cons.mp hts
      rw [List.mapM_cons] at h
      obtain ⟨o, e, ho, h⟩ := run_bind_ok h
      obtain ⟨others, e', hothers, h⟩ := run_bind_ok h
      cases h
      obtain ⟨taken, hpass⟩ := (steady_operand l modRm? t).takes.passes ho
      obtain ⟨taken', hpass'⟩ := (steady_mapM (steady_operand l modRm?) rest).takes.passes hothers
      have hcount := List.countP_cons (p := Template.namesRm) (l := rest) (a := t)
      have hposition := hpass.position_eq
      obtain ⟨hfields, hapart⟩ := ih hothers hrest (by omega)
        fun o ho hwidth => (hmemory o ho hwidth).trans (by omega)
      have hfirst (hwidth : o.width ≠ 0) := tellsField_operand ho hl ht hwidth
      refine ⟨List.forall_mem_cons.mpr ⟨fun hwidth => ?_, fun o' ho' hwidth => ?_⟩,
        List.pairwise_cons.mpr ⟨fun o' ho' => ?_, hapart⟩⟩
      · refine (hfirst hwidth).imp (fun hnamed => ⟨?_, hnamed.2⟩) fun htells => htells.before hpass'
        rw [hcount, if_pos hnamed.1]
        omega
      · exact (hfields o' ho' hwidth).imp (fun hnamed => ⟨by omega, hnamed.2⟩)
          fun htells => htells.after hpass
      · -- the r/m field is not named again
        refine apart_of_tellsField hfirst (hfields o' ho') (fun hnamed hagain => ?_) (by omega) hmemory
        rw [hcount, if_pos hnamed] at hnames
        omega

end Templates

/-! ### Along the way of the decoder -/

/-- Behind this opcode, and behind ModRM with this operand in memory, the operands that are read tell
their fields, and no two of them share a byte. -/
def Faithful (opcode : Nat) (memory? : Option Operand) (r : ByteReader Meaning) : Prop :=
  ∀ ⦃c m d⦄, r.run c = .ok (m, d) →
    (∀ o ∈ memory?, o.width ≠ 0 → o.offset + o.width ≤ c.position) →
    (∀ o ∈ m.operands, o.width ≠ 0 → memory? = some o ∨ TellsField opcode c d o) ∧
      m.operands.Pairwise Operand.Apart

variable {memory? : Option Operand} {w : Width} {p : Prefixes} {rex : Rex} {spec : OpcodeSpec}
  {map : OpcodeMap} {code : Nat}

theorem faithful_reject (opcode : Nat) (memory? : Option Operand) :
    Faithful opcode memory? reject := fun _ _ _ h => nomatch h

theorem Faithful.bind {r : ByteReader α} {f : α → ByteReader Meaning} (hr : Takes 0 r)
    (hf : ∀ a, Faithful opcode memory? (f a)) : Faithful opcode memory? (r >>= f) := by
  intro c m d h hmemory
  obtain ⟨a, e, hrun, h⟩ := run_bind_ok h
  obtain ⟨taken, hpass⟩ := hr.passes hrun
  have hposition := hpass.position_eq
  obtain ⟨hfields, hapart⟩ := hf a h fun o ho hwidth => (hmemory o ho hwidth).trans (by omega)
  exact ⟨fun o ho hwidth => (hfields o ho hwidth).imp_right fun htells => htells.after hpass, hapart⟩

theorem Faithful.byte {f : Nat → ByteReader Meaning} (hf : ∀ b, Faithful opcode memory? (f b)) :
    Faithful opcode memory? (byte >>= f) :=
  .bind steady_byte.takes hf

/-- The displacement is a field as well, in front of those that are read behind ModRM. -/
theorem Faithful.modRm {addressSize : Nat} {relativeToEnd forceRegister : Bool}
    {g : ModRm → ByteReader Meaning} (hsign : ∀ n, ¬LacksSign opcode n)
    (hsteady : ∀ m, Steady (g m)) (hg : ∀ m, Faithful opcode m.memory (g m)) :
    Faithful opcode none (ByteReader.modRm rex addressSize relativeToEnd forceRegister >>= g) := by
  intro c x d h _
  obtain ⟨m, e, hmodRm, h⟩ := run_bind_ok h
  obtain ⟨taken, hpass⟩ := (steady_modRm ..).takes.passes hmodRm
  obtain ⟨taken', hpass'⟩ := (hsteady m).takes.passes h
  have hmemory (o : Operand) (ho : m.memory = some o) (hwidth : o.width ≠ 0) :=
    tellsField_modRm hmodRm hsign ho hwidth
  obtain ⟨hfields, hapart⟩ := hg m h fun o ho hwidth => (hmemory o ho hwidth).bounds.2
  refine ⟨fun o ho hwidth => .inr ?_, hapart⟩
  rcases hfields o ho hwidth with hmem | htells
  · exact (hmemory o hmem hwidth).before hpass'
  · exact htells.after hpass

theorem faithful_behindModRm {modRm? : Option ModRm}
    (hsuits : ∀ t ∈ (completeSpec spec modRm?).operands, t.Suits opcode)
    (hnames : (completeSpec spec modRm?).operands.countP Template.namesRm ≤ 1) :
    Faithful opcode (modRm?.bind ModRm.memory)
      (behindModRm w p rex spec map code modRm?) := by
  rcases behindModRm_eq w p rex spec map code modRm? with heq | ⟨l, s, mnemonic, count, hl, heq⟩
  · rw [heq]
    exact faithful_reject opcode _
  · rw [heq]
    intro c x d h hmemory
    obtain ⟨os, e, hos, h⟩ := run_bind_ok h
    cases h
    obtain ⟨hfields, hapart⟩ := tellsField_mapM hos hl hsuits hnames hmemory
    exact ⟨fun o ho hwidth => (hfields o ho hwidth).imp_left And.right, hapart⟩

/-- A template that names the r/m field asks for ModRM. -/
theorem countP_namesRm_of_not (h : spec.needsModRm = false) :
    spec.operands.countP Template.namesRm = 0 := by
  rw [OpcodeSpec.needsModRm, Bool.or_eq_false_iff, List.any_eq_false] at h
  refine List.countP_eq_zero.mpr fun t ht hnames => h.2 t ht ?_
  cases t <;> first | rfl | cases hnames

theorem faithful_tail (hsuits : spec.Suits opcode) (hone : spec.HasOneField) :
    Faithful opcode none (tail w p rex spec map code) := by
  cases hneeds : spec.needsModRm with
  | true =>
      rw [tail, if_pos hneeds, bind_map_left]
      refine .modRm (not_lacksSign (hsuits.signed hneeds)) (fun m => steady_behindModRm ..)
        fun m => ?_
      exact faithful_behindModRm (suits_completeSpec hsuits hneeds m)
        (namesRmOnce_completeSpec (hone.rm_once hneeds) m).2
  | false =>
      rw [tail, if_neg (by simp [hneeds]), pure_bind]
      refine faithful_behindModRm ?_ ?_
      · rw [completeSpec_none]
        exact hsuits.operands
      · rw [completeSpec_none, countP_namesRm_of_not hneeds]
        exact Nat.zero_le 1

theorem faithful_floatTail (hsign : ∀ n, ¬LacksSign opcode n) :
    Faithful opcode none (floatTail w p rex code) := by
  refine .bind ahead_peek.takes fun modRmByte => .modRm hsign (fun m => ?_) fun m => ?_
  · split
    · exact steady_reject
    · exact steady_pure _
  · split
    · exact faithful_reject opcode _
    · intro c x d h _
      cases h
      refine ⟨fun o ho _ => .inl (Option.mem_toList.mp ho), ?_⟩
      cases m.memory with
      | none => exact .nil
      | some o => exact List.pairwise_singleton ..

/-- Of the operands that an encoding has besides an immediate, only the one in memory has a field. -/
theorem width_meaning (h : VectorHead) (w : Width) (m : ModRm) :
    (∀ o ∈ (h.meaning w m).operands, o.width ≠ 0 → m.memory = some o) ∧
      (h.meaning w m).operands.Pairwise Operand.Apart := by
  obtain ⟨r, s, hoperands⟩ := operands_meaning h w m
  rw [hoperands]
  refine ⟨List.forall_mem_cons.mpr ⟨fun hwidth => absurd rfl hwidth,
    List.forall_mem_singleton.mpr memory_of_width_getD⟩, ?_⟩
  exact List.pairwise_pair.mpr (Operand.apart_of_width rfl)

theorem faithful_vectorTail (hsign : ∀ n, ¬LacksSign opcode n) (h : VectorHead) :
    Faithful opcode none (vectorTail w h) := by
  unfold vectorTail
  split
  · intro c x d hrun _
    cases hrun
    exact ⟨nofun, .nil⟩
  · refine .modRm hsign (fun m => ?_) fun m c x d hrun hmemory => ?_
    · dsimp only
      split
      · exact (steady_signedImmediate 1).bind fun _ => steady_pure _
      · exact steady_pure _
    · obtain ⟨hfields, hapart⟩ := width_meaning h w m
      dsimp only at hrun
      split at hrun
      · obtain ⟨immediate, e, himmediate, hrun⟩ := run_bind_ok hrun
        cases hrun
        have htells := tellsField_signedImmediate himmediate (hsign 1)
        refine ⟨fun o ho hwidth => ?_, List.pairwise_append.mpr
          ⟨hapart, List.pairwise_singleton .., fun o ho o' ho' => ?_⟩⟩
        · rcases List.mem_append.mp ho with ho | ho
          · exact .inl (hfields o ho hwidth)
          · exact .inr (List.mem_singleton.mp ho ▸ htells)
        · obtain rfl := List.mem_singleton.mp ho'
          by_cases hwidth : o.width = 0
          · exact Operand.apart_of_width hwidth
          · have hfront := hmemory o (hfields o ho hwidth) hwidth
            exact Operand.apart_of_le (hfront.trans htells.bounds.1)
      · cases hrun
        exact ⟨fun o ho hwidth => .inl (hfields o ho hwidth), hapart⟩

theorem faithful_vex (hsign : ∀ n, ¬LacksSign opcode n) (lead : Nat) :
    Faithful opcode none (vex w lead) := by
  refine .byte fun first => ?_
  dsimp only
  split
  · rw [pure_bind]
    split
    · exact faithful_reject opcode none
    · exact .byte fun code => faithful_vectorTail hsign _
  · simp only [pure_bind]
    refine .byte fun second => ?_
    split
    · exact faithful_reject opcode none
    · exact .byte fun code => faithful_vectorTail hsign _

theorem faithful_evex (hsign : ∀ n, ¬LacksSign opcode n) : Faithful opcode none (evex w) := by
  refine .byte fun first => .byte fun second => .byte fun _ => ?_
  dsimp only
  split
  · exact faithful_reject opcode none
  · split
    · exact faithful_reject opcode none
    · exact .byte fun code => faithful_vectorTail hsign _

/-- The first byte that is neither a legacy prefix nor a REX byte. -/
def leadByte (w : Width) : ByteReader Nat := do
  let _ ← prefixes
  let _ ← rexByte w
  byte

/-- What is read of an instruction behind the first byte of its opcode. -/
theorem tellsField_of_lead {f : Prefixes → Rex → Nat → ByteReader Meaning}
    (hf : ∀ p rex opcode, Faithful opcode none (f p rex opcode)) {m : Meaning}
    (h : (prefixes >>= fun p => rexByte w >>= fun rex => byte >>= f p rex).run c = .ok (m, d)) :
    ∃ opcode e, (leadByte w).run c = .ok (opcode, e) ∧
      (∀ o ∈ m.operands, o.width ≠ 0 → TellsField opcode c d o) ∧
        m.operands.Pairwise Operand.Apart := by
  obtain ⟨p, e₁, hp, h⟩ := run_bind_ok h
  obtain ⟨rex, e₂, hrex, h⟩ := run_bind_ok h
  obtain ⟨opcode, e₃, hopcode, h⟩ := run_bind_ok h
  obtain ⟨t₁, hpass₁⟩ := ahead_prefixes.takes.passes hp
  obtain ⟨t₂, hpass₂⟩ := (ahead_rexByte w).takes.passes hrex
  obtain ⟨t₃, hpass₃⟩ := steady_byte.takes.passes hopcode
  obtain ⟨hfields, hapart⟩ := hf p rex opcode h nofun
  refine ⟨opcode, e₃, ?_, fun o ho hwidth => ?_, hapart⟩
  · rw [leadByte, run_bind_of_ok hp, run_bind_of_ok hrex, hopcode]
  · rcases hfields o ho hwidth with hnone | htells
    · cases hnone
    · exact htells.after ((hpass₁.trans hpass₂).trans hpass₃)

theorem faithful_escape (w : Width) (p : Prefixes) (rex : Rex) :
    Faithful 0x0f none (byte >>= fun second =>
      if second = 0x38 then
        byte >>= fun third => tail w p rex (threeByteSpec38 p third) .threeByte third
      else if second = 0x3a then
        byte >>= fun third => tail w p rex (threeByteSpec3a third) .threeByte third
      else tail w p rex (twoByteSpec p second) .twoByte second) := by
  refine .byte fun second => ?_
  split
  · exact .byte fun third =>
      faithful_tail (suits_threeByteSpec38 p third) (hasOneField_threeByteSpec38 p third)
  · split
    · exact .byte fun third =>
        faithful_tail (suits_threeByteSpec3a third) (hasOneField_threeByteSpec3a third)
    · exact faithful_tail (suits_twoByteSpec p second) (hasOneField_twoByteSpec p second)

/-- An instruction tells the fields of its operands. -/
theorem tellsField_instruction {m : Meaning} (h : (instruction w).run c = .ok (m, d)) :
    ∃ opcode e, (leadByte w).run c = .ok (opcode, e) ∧
      (∀ o ∈ m.operands, o.width ≠ 0 → TellsField opcode c d o) ∧
        m.operands.Pairwise Operand.Apart := by
  refine tellsField_of_lead (fun p rex opcode => ?_) h
  have hone : Faithful opcode none (tail w p rex (oneByteSpec w p rex opcode) .oneByte opcode) :=
    faithful_tail (suits_oneByteSpec w p rex opcode) (hasOneField_oneByteSpec w p rex opcode)
  -- opcodes that the one-byte map does not tell have no field without a sign
  have hsign (hopcode : (opcode = 0xc4 ∨ opcode = 0xc5 ∨ opcode = 0x62) ∨
      (0xd8 ≤ opcode ∧ opcode ≤ 0xdf)) (n : Nat) : ¬LacksSign opcode n := by
    refine not_lacksSign ?_ n
    simp only [wordOpcodes, offsetOpcodes, List.mem_append, List.mem_cons, List.not_mem_nil,
      or_false]
    omega
  by_cases hlead : opcode = 0xc4 ∨ opcode = 0xc5 ∨ opcode = 0x62
  · refine .bind (ahead_startsVector w opcode).takes fun isVector => ?_
    dsimp only
    split
    · split <;> split
      · exact faithful_reject opcode none
      · exact faithful_reject opcode none
      · exact faithful_evex (hsign (.inl hlead))
      · exact faithful_vex (hsign (.inl hlead)) opcode
    · rw [if_neg (by omega), if_neg (by omega)]
      exact hone
  · rw [startsVector, if_neg hlead, pure_bind]
    dsimp only
    rw [if_neg Bool.false_ne_true]
    split
    · exact faithful_floatTail (hsign (.inr ‹_›))
    · split
      · rename_i hescape
        rw [hescape]
        exact faithful_escape w p rex
      · exact hone

end ByteReader

end Decode

open Decode ByteReader

/-- The first byte of the opcode of an instruction: the one behind its prefixes. -/
def Instruction.opcode? (w : Width) (i : Instruction) : Option Nat :=
  match (leadByte w).run ⟨i.bytes, 0⟩ with
  | .ok (opcode, _) => some opcode
  | .error _ => none

/-- What the operands say of the bytes of their instruction is true. -/
structure Instruction.Faithful (i : Instruction) (opcode : Nat) : Prop where
  relative_le : (i.operands.filter Operand.isRelative).length ≤ 1
  inside : ∀ o ∈ i.operands, o.width ≠ 0 → o.offset + o.width ≤ i.size
  value_eq : ∀ o ∈ i.operands, o.width ≠ 0 →
    o.value = fieldValue opcode ((i.bytes.drop o.offset).take o.width)
  apart : i.operands.Pairwise Operand.Apart

variable {w : Width} {bytes : List UInt8} {a : Nat} {i : Instruction}

/-- An instruction has one relative operand at most. -/
theorem length_filter_isRelative_le (h : decode w bytes a = .ok i) :
    (i.operands.filter Operand.isRelative).length ≤ 1 := by
  obtain ⟨m, c, hrun, rfl⟩ := run_of_decode h
  dsimp only
  cases hrelative : m.operands.filter Operand.isRelative with
  | nil => exact Nat.zero_le 1
  | cons o rest =>
      have hmem := List.mem_filter.mp (hrelative ▸ List.mem_cons_self)
      obtain ⟨front, field, back, -, hat⟩ := aims_instruction w hrun o hmem.1 hmem.2
      rw [← hrelative, hat.alone]
      exact Nat.le_refl 1

/-- Whatever is decoded, at most one operand is relative, and every operand with a field tells the
truth about it: the field lies inside of the instruction, the value is the number in it, and its
bytes belong to no other operand. -/
theorem decode_faithful (h : decode w bytes a = .ok i) :
    ∃ opcode, i.opcode? w = some opcode ∧ i.Faithful opcode := by
  obtain ⟨m, hrun, hi⟩ := run_bytes_of_decode h
  have hwhole := hrun []
  rw [List.append_nil] at hwhole
  obtain ⟨opcode, e, hopcode, hfields, hapart⟩ := tellsField_instruction hwhole
  have hoperands : i.operands = m.operands := by rw [hi]
  rw [← hoperands] at hfields hapart
  refine ⟨opcode, by rw [Instruction.opcode?, hopcode], length_filter_isRelative_le h,
    fun o ho hwidth => ?_, fun o ho hwidth => ?_, hapart⟩
  · exact (hfields o ho hwidth).bounds.2
  · obtain ⟨front, field, back, hpass, hoffset, hlength, hvalue⟩ := hfields o ho hwidth
    have hbytes : i.bytes = front ++ (field ++ back) := by
      simpa only [List.append_nil, List.append_assoc] using hpass.unread_eq
    rw [hvalue, hbytes, hoffset, hlength, Nat.zero_add, List.drop_left, List.take_left]

/-- A word without a sign in front of a byte with one. -/
def enterFrame : Instruction :=
  { address := 0x401000
    bytes := [0xc8, 0xff, 0xff, 0xff]
    opcodeClass := .int
    mnemonic := "enter"
    operands := [Operand.immediate 0xffff 1 2, Operand.immediate (-1) 3 1]
    uses := RegSet.ofGprs [.sp, .bp]
    defs := RegSet.ofGprs [.sp, .bp] }

set_option maxRecDepth 4096 in
theorem decode_enterFrame :
    decode .bits64 [0xc8, 0xff, 0xff, 0xff, 0x90] 0x401000 = .ok enterFrame := by cbv

theorem decode_faithful_enterFrame :
    enterFrame.opcode? .bits64 = some 0xc8 ∧ enterFrame.Faithful 0xc8 := by
  obtain ⟨opcode, hopcode, hfaithful⟩ := decode_faithful decode_enterFrame
  have hlead : enterFrame.opcode? .bits64 = some 0xc8 := by cbv
  obtain rfl : 0xc8 = opcode := Option.some.inj (hlead.symm.trans hopcode)
  exact ⟨hlead, hfaithful⟩

end BinTrace
