/-!
Reading and writing a part of a run of bytes.
-/

namespace BinTrace.Bytes

/-- Bytes from `start` on, `length` in number, if there are that many. -/
def slice? (bytes : List UInt8) (start length : Nat) : Option (List UInt8) :=
  if start + length ≤ bytes.length then some ((bytes.drop start).take length) else none

/-- Writes `new` over the bytes that begin at `start`, as far as there are bytes. -/
def overwrite (bytes : List UInt8) (start : Nat) (new : List UInt8) : List UInt8 :=
  (bytes.take start ++ new ++ bytes.drop (start + new.length)).take bytes.length

/-- Writes over bytes that are there. -/
def overwrite? (bytes : List UInt8) (start : Nat) (new : List UInt8) : Option (List UInt8) :=
  if start + new.length ≤ bytes.length then some (overwrite bytes start new) else none

@[simp] theorem length_overwrite (bytes : List UInt8) (start : Nat) (new : List UInt8) :
    (overwrite bytes start new).length = bytes.length := by
  simp only [overwrite, List.length_append, List.length_take, List.length_drop]
  omega

/-- Where there is room, nothing is cut off. -/
theorem overwrite_eq {bytes new : List UInt8} {start : Nat}
    (h : start + new.length ≤ bytes.length) :
    overwrite bytes start new = bytes.take start ++ new ++ bytes.drop (start + new.length) := by
  apply List.take_of_length_le
  simp only [List.length_append, List.length_take, List.length_drop]
  omega

theorem slice?_overwrite {bytes new : List UInt8} {start : Nat}
    (h : start + new.length ≤ bytes.length) :
    slice? (overwrite bytes start new) start new.length = some new := by
  have hl : (bytes.take start).length = start := by
    rw [List.length_take]
    omega
  have hd : (overwrite bytes start new).drop start = new ++ bytes.drop (start + new.length) := by
    rw [overwrite_eq h, List.append_assoc, List.drop_append_of_le_length (by omega),
      List.drop_eq_nil_of_le (by omega), List.nil_append]
  rw [slice?, length_overwrite, if_pos h, hd, List.take_left]

end BinTrace.Bytes
