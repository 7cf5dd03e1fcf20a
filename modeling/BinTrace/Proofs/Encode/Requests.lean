import BinTrace.Proofs.Encode.Branches
import BinTrace.Proofs.Encode.Memory
import BinTrace.Proofs.Encode.Registers

/-!
Whatever the encoder gives, the decoder reads back. A request is an instruction that the encoder can
be asked for, with all that it is asked with.
-/

namespace BinTrace.Encode

inductive Request
  | push (r : Gpr)
  | pop (r : Gpr)
  | pushf
  | popf
  | lahf
  | sahf
  | movImmediate (r : Gpr) (value : Int)
  | movToAddress (src : Gpr) (address : Nat)
  | movFromAddress (dst : Gpr) (address : Nat)
  | movToMemory (src base : Gpr) (displacement : Int)
  | movFromMemory (dst base : Gpr) (displacement : Int)
  | lea (dst base : Gpr) (displacement : Int)
  | adjustStack (delta : Int)
  | addToAddress (place address : Nat) (value : Int)
  | jumpNear (place target : Nat)
  | jump (place target : Nat)
  | call (place target : Nat)
  | jumpIf (code place target : Nat)
  deriving DecidableEq

namespace Request

/-- The encoder's answer in code of width `w`. -/
def encode (w : Width) : Request → Except EncodeError Instruction
  | push r => Encode.push w r
  | pop r => Encode.pop w r
  | pushf => .ok Encode.pushf
  | popf => .ok Encode.popf
  | lahf => .ok Encode.lahf
  | sahf => .ok Encode.sahf
  | movImmediate r value => Encode.movImmediate w r value
  | movToAddress src address => Encode.movToAddress w src address
  | movFromAddress dst address => Encode.movFromAddress w dst address
  | movToMemory src base displacement => Encode.movToMemory w src base displacement
  | movFromMemory dst base displacement => Encode.movFromMemory w dst base displacement
  | lea dst base displacement => Encode.lea w dst base displacement
  | adjustStack delta => Encode.adjustStack w delta
  | addToAddress place address value => Encode.addToAddress w place address value
  | jumpNear place target => Encode.jumpNear place target
  | jump place target => Encode.jump place target
  | call place target => Encode.call w place target
  | jumpIf code place target => Encode.jumpIf code place target

variable {w : Width} {q : Request} {i : Instruction}

theorem isReadBack (h : q.encode w = .ok i) : IsReadBack w i := by
  obtain ⟨hpushf, hpopf, hsahf, hlahf⟩ := isReadBack_flags w
  cases q with
  | push r => exact isReadBack_push h
  | pop r => exact isReadBack_pop h
  | pushf => exact Except.ok.inj h ▸ hpushf
  | popf => exact Except.ok.inj h ▸ hpopf
  | lahf => exact Except.ok.inj h ▸ hlahf
  | sahf => exact Except.ok.inj h ▸ hsahf
  | movImmediate r value =>
      obtain ⟨hsource, j, hdecode, hreads, -⟩ := isReadBack_movImmediate h
      exact ⟨hsource, j, hdecode, hreads⟩
  | movToAddress src address => exact isReadBack_movToAddress h
  | movFromAddress dst address => exact isReadBack_movFromAddress h
  | movToMemory src base displacement => exact isReadBack_movToMemory h
  | movFromMemory dst base displacement => exact isReadBack_movFromMemory h
  | lea dst base displacement => exact isReadBack_lea h
  | adjustStack delta => exact isReadBack_lea h
  | addToAddress place address value => exact isReadBack_addToAddress h
  | jumpNear place target => exact isReadBack_jumpNear h
  | jump place target => exact isReadBack_jump h
  | call place target => exact isReadBack_call h
  | jumpIf code place target => exact isReadBack_jumpIf h

end Request

end BinTrace.Encode
