import BinTrace.Arithmetic

/-!
Numbers as bytes with the least significant byte first, unsigned and in two's complement.
-/

namespace BinTrace.LittleEndian

/-- The lowest `width` bytes of `n`. -/
def bytesOf : Nat → Nat → List UInt8
  | 0, _ => []
  | width + 1, n => UInt8.ofNat n :: bytesOf width (n / 256)

def value : List UInt8 → Nat
  | [] => 0
  | b :: rest => b.toNat + 256 * value rest

/-- The bytes as a two's complement number of their own width. -/
def signedValue (bytes : List UInt8) : Int :=
  (value bytes : Int).bmod (256 ^ bytes.length)

/-- The lowest `width` bytes of the two's complement form of `n`. -/
def bytesOfInt (width : Nat) (n : Int) : List UInt8 :=
  bytesOf width (n.emod (256 ^ width)).toNat

/-- `n` is a two's complement number of `width` bytes. -/
def FitsSigned (width : Nat) (n : Int) : Prop :=
  -(2 ^ (8 * width - 1) : Int) ≤ n ∧ n < (2 ^ (8 * width - 1) : Int)

instance (width : Nat) (n : Int) : Decidable (FitsSigned width n) :=
  inferInstanceAs (Decidable (_ ∧ _))

theorem length_bytesOf (width n : Nat) : (bytesOf width n).length = width := by
  induction width generalizing n with
  | zero => rfl
  | succ width ih => simp [bytesOf, ih]

theorem value_bytesOf (width n : Nat) : value (bytesOf width n) = n % 256 ^ width := by
  induction width generalizing n with
  | zero => simp [bytesOf, value, Nat.mod_one]
  | succ width ih =>
    have h : n % 256 ^ (width + 1) = n % 256 + 256 * (n / 256 % 256 ^ width) := by
      rw [Nat.pow_succ, Nat.mul_comm, Nat.mod_mul]
    rw [bytesOf, value, ih, UInt8.toNat_ofNat', h]

theorem value_lt (bytes : List UInt8) : value bytes < 256 ^ bytes.length := by
  induction bytes with
  | nil => simp [value]
  | cons b rest ih =>
    have hb := b.toNat_lt
    rw [value, List.length_cons, Nat.pow_succ]
    omega

theorem bytesOf_value (bytes : List UInt8) : bytesOf bytes.length (value bytes) = bytes := by
  induction bytes with
  | nil => rfl
  | cons b rest ih =>
    have hb := b.toNat_lt
    have hd : (b.toNat + 256 * value rest) / 256 = value rest := by omega
    have hm : UInt8.ofNat (b.toNat + 256 * value rest) = b := by
      apply UInt8.toNat_inj.mp
      rw [UInt8.toNat_ofNat']
      omega
    rw [List.length_cons, value, bytesOf, hd, hm, ih]

/-- A number is read back from its bytes if it fits into them. -/
theorem signedValue_bytesOfInt {width : Nat} {v : Int} (hwidth : 0 < width)
    (h : FitsSigned width v) : signedValue (bytesOfInt width v) = v := by
  obtain ⟨hlow, hhigh⟩ := h
  have hmodulus : (256 : Int) ^ width = ((256 : Nat) ^ width : Nat) :=
    (Int.natCast_pow 256 width).symm
  have hhalf : (2 : Int) ^ (8 * width - 1) = ((2 : Nat) ^ (8 * width - 1) : Nat) :=
    (Int.natCast_pow 2 _).symm
  have hpos : 0 < (256 : Nat) ^ width := Nat.pow_pos (Nat.succ_pos 255)
  have hdouble : (256 : Nat) ^ width = 2 * 2 ^ (8 * width - 1) := calc
    (256 : Nat) ^ width = 2 ^ (8 * width) := (Nat.pow_mul 2 8 width).symm
    _ = 2 ^ (8 * width - 1 + 1) := by rw [Nat.sub_add_cancel (by omega)]
    _ = 2 * 2 ^ (8 * width - 1) := Nat.pow_succ'
  rw [signedValue, bytesOfInt, length_bytesOf, value_bytesOf, hmodulus]
  rw [hhalf] at hlow hhigh
  generalize (256 : Nat) ^ width = modulus at hdouble hpos ⊢
  generalize (2 : Nat) ^ (8 * width - 1) = half at hdouble hlow hhigh
  have hnonneg := Int.emod_nonneg v (b := modulus) (by omega)
  have hlt := Int.emod_lt_of_pos v (b := modulus) (by omega)
  change (((v % (modulus : Int)).toNat % modulus : Nat) : Int).bmod modulus = v
  rw [Nat.mod_eq_of_lt (by omega), Int.toNat_of_nonneg hnonneg, Int.emod_bmod]
  exact Int.bmod_eq_of_le_mul_two (by omega) (by omega)

end BinTrace.LittleEndian
