import BinTrace.Proofs.Outcome
import BinTrace.Patch.PatchSet

/-!
Writing runs of bytes into a buffer that lies at an address. If no two of the runs have an address
in common, then the buffer holds every one of them in the end, and all other bytes are as before.
-/

namespace BinTrace

open Outcome

namespace Bytes

variable {bytes new : List UInt8} {start n : Nat}

theorem getElem?_overwrite (h : start + new.length ≤ bytes.length) :
    (overwrite bytes start new)[n]? =
      if start ≤ n ∧ n < start + new.length then new[n - start]? else bytes[n]? := by
  have hstart : (bytes.take start).length = start := by
    rw [List.length_take]
    omega
  rw [overwrite_eq h]
  by_cases hlow : n < start
  · rw [if_neg (by omega), List.append_assoc, List.getElem?_append_left (by omega),
      List.getElem?_take_of_lt hlow]
  by_cases hhigh : n < start + new.length
  · rw [if_pos (by omega), List.append_assoc, List.getElem?_append_right (by omega), hstart,
      List.getElem?_append_left (by omega)]
  · have hfront : (bytes.take start ++ new).length = start + new.length := by
      rw [List.length_append, hstart]
    rw [if_neg (by omega), List.getElem?_append_right (by omega), hfront, List.getElem?_drop]
    congr 1
    omega

end Bytes

namespace AddressRange

/-- One of the ranges lies behind the other. -/
def Apart (r s : AddressRange) : Prop := r.stop ≤ s.base ∨ s.stop ≤ r.base

theorem Apart.symm {r s : AddressRange} (h : r.Apart s) : s.Apart r := Or.symm h

theorem overlaps_eq_false_iff {r s : AddressRange} : r.overlaps s = false ↔ r.Apart s := by
  simp only [overlaps, Apart, Bool.and_eq_false_iff, decide_eq_false_iff_not]
  omega

theorem contains_eq_false_iff {r : AddressRange} {a : Nat} :
    r.contains a = false ↔ a < r.base ∨ r.stop ≤ a := by
  rw [Bool.eq_false_iff, Ne, contains_iff, stop]
  omega

/-- No address lies in both ranges. -/
def Disjoint (r s : AddressRange) : Prop := ∀ a, r.contains a = true → s.contains a = false

theorem Disjoint.symm {r s : AddressRange} (h : r.Disjoint s) : s.Disjoint r := by
  intro a ha
  rw [Bool.eq_false_iff]
  intro hr
  rw [h a hr] at ha
  cases ha

/-- Parts of disjoint ranges lie one behind the other, unless they are empty. -/
theorem Disjoint.apart {r s r' s' : AddressRange} (h : r.Disjoint s)
    (hr : r.base ≤ r'.base ∧ r'.stop ≤ r.stop) (hs : s.base ≤ s'.base ∧ s'.stop ≤ s.stop)
    (hr' : 0 < r'.size) (hs' : 0 < s'.size) : r'.Apart s' := by
  by_contra hmeet
  have hboth := h (max r'.base s'.base)
  simp only [contains_eq_false_iff, contains_iff] at hboth
  simp only [Apart, stop] at hmeet hr hs hboth
  omega

end AddressRange

/-- Bytes that are to be written, and the address for the first of them. -/
structure Write where
  address : Nat
  bytes : List UInt8

namespace Write

def range (w : Write) : AddressRange := ⟨w.address, w.bytes.length⟩

/-- Writes one run of bytes after the other. -/
def all (base : Nat) (buffer : List UInt8) : List Write → Except PatchError (List UInt8)
  | [] => .ok buffer
  | w :: rest => PatchPoint.writeAt buffer base w.address w.bytes >>= fun next => all base next rest

/-- The buffer at `base` has the bytes at their address. -/
structure Holds (base : Nat) (buffer : List UInt8) (w : Write) : Prop where
  base_le : base ≤ w.address
  room : w.address - base + w.bytes.length ≤ buffer.length
  bytes_eq : ∀ n < w.bytes.length, buffer[w.address - base + n]? = w.bytes[n]?

variable {base : Nat} {buffer result : List UInt8} {ws : List Write} {w : Write}

/-- From the address on the buffer has the bytes, and then something else. -/
theorem Holds.drop_eq (h : w.Holds base buffer) : buffer.drop (w.address - base) =
    w.bytes ++ buffer.drop (w.address - base + w.bytes.length) := by
  refine List.ext_getElem? fun n => ?_
  rw [List.getElem?_drop]
  by_cases hn : n < w.bytes.length
  · rw [List.getElem?_append_left hn]
    exact h.bytes_eq n hn
  · rw [List.getElem?_append_right (by omega), List.getElem?_drop]
    congr 1
    omega

theorem writeAt_eq_ok {a : Nat} {bytes : List UInt8} :
    PatchPoint.writeAt buffer base a bytes = .ok result ↔
      base ≤ a ∧ a - base + bytes.length ≤ buffer.length ∧
        result = Bytes.overwrite buffer (a - base) bytes := by
  unfold PatchPoint.writeAt Bytes.overwrite?
  by_cases ha : base ≤ a
  · by_cases hroom : a - base + bytes.length ≤ buffer.length
    · simp [ha, hroom, eq_comm]
    · simp [ha, hroom]
  · simp [ha]

/-- Nothing changes but what is written over. -/
theorem frame_of_all (h : all base buffer ws = .ok result) : result.length = buffer.length ∧
    ∀ n, (∀ w ∈ ws, w.range.contains (base + n) = false) → result[n]? = buffer[n]? := by
  induction ws generalizing buffer with
  | nil =>
      cases h
      exact ⟨rfl, fun _ _ => rfl⟩
  | cons w rest ih =>
      obtain ⟨next, hnext, h⟩ := bind_eq_ok.mp h
      obtain ⟨hbase, hroom, rfl⟩ := writeAt_eq_ok.mp hnext
      obtain ⟨hlength, hsame⟩ := ih h
      rw [Bytes.length_overwrite] at hlength
      refine ⟨hlength, fun n hn => ?_⟩
      obtain ⟨hout, hn⟩ := List.forall_mem_cons.mp hn
      rw [AddressRange.contains_eq_false_iff] at hout
      simp only [AddressRange.stop, range] at hout
      rw [hsame n hn, Bytes.getElem?_overwrite hroom, if_neg (by omega)]

/-- Writes that keep off each other all hold in the end. -/
theorem holds_of_all (h : all base buffer ws = .ok result)
    (hapart : ws.Pairwise fun v w => v.range.Apart w.range) : ∀ w ∈ ws, w.Holds base result := by
  induction ws generalizing buffer with
  | nil => simp
  | cons w rest ih =>
      obtain ⟨next, hnext, h⟩ := bind_eq_ok.mp h
      obtain ⟨hbase, hroom, rfl⟩ := writeAt_eq_ok.mp hnext
      obtain ⟨hw, hrest⟩ := List.pairwise_cons.mp hapart
      obtain ⟨hlength, hsame⟩ := frame_of_all h
      rw [Bytes.length_overwrite] at hlength
      refine List.forall_mem_cons.mpr ⟨⟨hbase, by omega, fun n hn => ?_⟩, ih h hrest⟩
      -- No later write touches what this one has written.
      rw [hsame, Bytes.getElem?_overwrite hroom, if_pos (by omega), Nat.add_sub_cancel_left]
      intro v hv
      have hdistinct := hw v hv
      simp only [AddressRange.Apart, AddressRange.stop, range] at hdistinct
      rw [AddressRange.contains_eq_false_iff]
      simp only [AddressRange.stop, range]
      omega

/-- The bytes are to lie one behind the other from `a` on. -/
def Laid (a : Nat) : List Write → Prop
  | [] => True
  | w :: rest => w.address = a ∧ Laid (a + w.bytes.length) rest

theorem Laid.le_address {a : Nat} (h : Laid a ws) : ∀ w ∈ ws, a ≤ w.address := by
  induction ws generalizing a with
  | nil => simp
  | cons w rest ih =>
      obtain ⟨rfl, hrest⟩ := h
      refine List.forall_mem_cons.mpr ⟨Nat.le_refl _, fun v hv => ?_⟩
      have := ih hrest v hv
      omega

theorem Laid.pairwise {a : Nat} (h : Laid a ws) :
    ws.Pairwise fun v w => v.range.Apart w.range := by
  induction ws generalizing a with
  | nil => exact .nil
  | cons w rest ih =>
      obtain ⟨rfl, hrest⟩ := h
      exact List.pairwise_cons.mpr ⟨fun v hv => .inl (hrest.le_address v hv), ih hrest⟩

/-- A buffer that is full of adjacent writes is what they say. -/
theorem eq_flatMap_of_laid {a : Nat} (hlaid : Laid a ws) (hholds : ∀ w ∈ ws, w.Holds base buffer)
    (hbase : base ≤ a) (hlength : buffer.length = a - base + (ws.flatMap bytes).length) :
    buffer.drop (a - base) = ws.flatMap bytes := by
  induction ws generalizing a with
  | nil =>
      rw [List.flatMap_nil, List.length_nil] at hlength
      rw [List.drop_of_length_le (by omega), List.flatMap_nil]
  | cons w rest ih =>
      obtain ⟨rfl, hlaid⟩ := hlaid
      obtain ⟨hw, hrest⟩ := List.forall_mem_cons.mp hholds
      rw [List.flatMap_cons, List.length_append] at hlength
      have hnext : w.address + w.bytes.length - base = w.address - base + w.bytes.length := by omega
      have htail := ih hlaid hrest (by omega) (by omega)
      rw [hw.drop_eq, ← hnext, htail, List.flatMap_cons]

end Write

end BinTrace
