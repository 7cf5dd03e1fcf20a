import BinTrace.Disassembly.Error
import BinTrace.JumpTable

/-!
Recursive descent: only what control can reach from the first byte is decoded. The walk follows
fall-through, direct branches and calls, and jump tables; addresses outside the function are left
alone. Two instructions that overlap are an error.
-/

namespace BinTrace

/-- What a descent looks at. -/
structure DescentInput where
  width : Width
  bytes : List UInt8
  base : Nat
  image : Option Image
  /-- Table entries nearer to zero than this are distances. -/
  reach : Nat

namespace DescentInput

def range (d : DescentInput) : AddressRange := ⟨d.base, d.bytes.length⟩

def decodeAt (d : DescentInput) (a : Nat) : Except DecodeError Instruction :=
  decode d.width (d.bytes.drop (a - d.base)) a

end DescentInput

/-- A walk on its way: instructions in the order of their addresses, addresses that wait with the
next one in front, and tables in the order of their jumps. -/
structure Descent where
  decoded : List Instruction := []
  pending : List Nat := []
  tables : List JumpTable := []

namespace Descent

/-- Puts an instruction in front of the first one that lies behind it. -/
def insertByAddress (i : Instruction) : List Instruction → List Instruction
  | [] => [i]
  | j :: rest => if i.address < j.address then i :: j :: rest else j :: insertByAddress i rest

def insertTable (t : JumpTable) : List JumpTable → List JumpTable
  | [] => [t]
  | u :: rest => if t.branch < u.branch then t :: u :: rest else u :: insertTable t rest

def isDecoded (d : Descent) (a : Nat) : Bool := d.decoded.any fun i => i.address = a

/-- The table of an indirect jump, if its base is known and the image holds it. -/
def table? (input : DescentInput) (d : Descent) (branch : Instruction) : Option JumpTable := do
  let preceding := (d.decoded.takeWhile fun i => i.address < branch.address).reverse
  let base ← JumpTable.findBase? input.width branch preceding
  let image ← input.image
  JumpTable.resolve? input.width image input.reach input.range branch.address base

/-- Where control may go from an instruction whose table is known: the next address comes first,
then the targets, the last one in front. -/
def successors (i : Instruction) (table? : Option JumpTable) : List Nat :=
  let targets :=
    if i.isTableJump then (table?.map JumpTable.targets).getD [] else i.controlTarget?.toList
  (if i.fallsThrough then [i.stop] else []) ++ targets.reverse

/-- Decodes at `a`, which waits in front of `rest`. -/
def visit (input : DescentInput) (d : Descent) (a : Nat) (rest : List Nat) :
    Except DisassemblyError Descent :=
  if d.decoded.any fun i => i.contains a then .error (.overlap a)
  else
    match input.decodeAt a with
    | .error e => .error (.decode e)
    | .ok i =>
      match d.decoded.find? fun j => a < j.address ∧ j.address < i.stop with
      | some j => .error (.overlap j.address)
      | none =>
        let found := if i.isTableJump then d.table? input i else none
        .ok {
          decoded := insertByAddress i d.decoded
          pending := successors i found ++ rest
          tables := match found with
            | some t => insertTable t d.tables
            | none => d.tables }

def undecoded (input : DescentInput) (d : Descent) : List Nat :=
  (List.range input.bytes.length).filter fun n => !d.isDecoded (input.base + n)

theorem isDecoded_insertByAddress (i : Instruction) (is : List Instruction) (a : Nat) :
    (insertByAddress i is).any (fun j => j.address = a) =
      (decide (i.address = a) || is.any fun j => j.address = a) := by
  induction is with
  | nil => simp [insertByAddress]
  | cons j rest ih =>
    rw [insertByAddress]
    split
    · simp
    · simp only [List.any_cons, ih]
      cases decide (j.address = a) <;> cases decide (i.address = a) <;> rfl

theorem decode_address {w : Width} {bytes : List UInt8} {a : Nat} {i : Instruction}
    (h : decode w bytes a = .ok i) : i.address = a := by
  unfold decode at h
  split at h
  · cases h; rfl
  · cases h
  · split at h <;> cases h

theorem decoded_visit {input : DescentInput} {d e : Descent} {a : Nat} {rest : List Nat}
    (h : d.visit input a rest = .ok e) :
    ∃ i, i.address = a ∧ e.decoded = insertByAddress i d.decoded := by
  unfold visit at h
  split at h
  · cases h
  · split at h
    · cases h
    · rename_i i hi
      split at h
      · cases h
      · cases h
        exact ⟨i, decode_address hi, rfl⟩

theorem length_filter_lt_of_imp {p q : Nat → Bool} {xs : List Nat} {x : Nat} (hx : x ∈ xs)
    (hq : q x = true) (hp : p x = false) (h : ∀ y, p y = true → q y = true) :
    (xs.filter p).length < (xs.filter q).length := by
  induction xs with
  | nil => cases hx
  | cons y ys ih =>
    have hle : (ys.filter p).length ≤ (ys.filter q).length := by
      clear ih hx
      induction ys with
      | nil => exact Nat.le_refl _
      | cons z zs ih =>
        rw [List.filter_cons, List.filter_cons]
        have hz := h z
        cases hpz : p z with
        | false => cases q z <;> simp <;> omega
        | true => simp [hz hpz]; exact ih
    rw [List.filter_cons, List.filter_cons]
    rcases List.mem_cons.mp hx with rfl | hx
    · simp [hp, hq]
      omega
    · have := ih hx
      have hy := h y
      cases hpy : p y with
      | false => cases q y <;> simp <;> omega
      | true => simp [hy hpy]; exact this

theorem undecoded_visit_lt {input : DescentInput} {d e : Descent} {a : Nat}
    {rest : List Nat} (h : d.visit input a rest = .ok e)
    (hr : input.range.contains a = true) (hn : d.isDecoded a = false) :
    (undecoded input e).length < (undecoded input d).length := by
  obtain ⟨i, hi, he⟩ := decoded_visit h
  rw [AddressRange.contains_iff] at hr
  simp only [DescentInput.range] at hr
  have ha : input.base + (a - input.base) = a := by omega
  apply length_filter_lt_of_imp
  · exact List.mem_range.mpr (show a - input.base < _ by omega)
  · rw [ha, hn]; rfl
  · rw [ha, isDecoded, he, isDecoded_insertByAddress, hi]
    simp
  · intro n hn
    rw [isDecoded, he, isDecoded_insertByAddress] at hn
    simp only [Bool.not_or, Bool.and_eq_true] at hn
    exact hn.2

set_option linter.unusedVariables false in
/-- Goes on until nothing waits or an error stops the walk; either way with the tables that were
found. -/
def run (input : DescentInput) (d : Descent) :
    Except DisassemblyError (List Instruction) × List JumpTable :=
  match hp : d.pending with
  | [] => (.ok d.decoded, d.tables)
  | a :: rest =>
    if hs : (!input.range.contains a || d.isDecoded a) = true then
      run input { d with pending := rest }
    else
      match hv : d.visit input a rest with
      | .error e => (.error e, d.tables)
      | .ok next => run input next
termination_by ((undecoded input d).length, d.pending.length)
decreasing_by
  · simp only [hp, List.length_cons, undecoded, isDecoded]
    exact Prod.Lex.right _ (Nat.lt_succ_self _)
  · simp only [Bool.or_eq_true, Bool.not_eq_true', not_or, Bool.not_eq_false,
      Bool.not_eq_true] at hs
    exact Prod.Lex.left _ _ (undecoded_visit_lt hv hs.1 hs.2)

end Descent

/-- The instructions that control reaches from `base`, in the order of their addresses. -/
def descend (input : DescentInput) :
    Except DisassemblyError (List Instruction) × List JumpTable :=
  Descent.run input { pending := [input.base] }

end BinTrace
