/-!
Mnemonics of the vector operations behind the byte `0f`. Each has four, for the forms without a
prefix and with the prefixes `66`, `f3` and `f2`.
-/

namespace BinTrace.Opcode

/-- The prefix that chooses among the forms of a vector operation. -/
inductive MandatoryPrefix
  | absent | operandSize | repeat | repeatNotEqual
  deriving DecidableEq

def packedName (p : MandatoryPrefix) (single double scalarSingle scalarDouble : String) : String :=
  match p with
  | .absent => single
  | .operandSize => double
  | .repeat => scalarSingle
  | .repeatNotEqual => scalarDouble

/-- The name does not depend on `f3` and `f2`. -/
def pairName (p : MandatoryPrefix) (single double : String) : String :=
  packedName p single double single single

def vectorName (opcode : Nat) (p : MandatoryPrefix) : String :=
  match opcode with
  | 0x10 | 0x11 => packedName p "movups" "movupd" "movss" "movsd"
  | 0x12 => packedName p "movlps" "movlpd" "movsldup" "movddup"
  | 0x13 => pairName p "movlps" "movlpd"
  | 0x14 => pairName p "unpcklps" "unpcklpd"
  | 0x15 => pairName p "unpckhps" "unpckhpd"
  | 0x16 => packedName p "movhps" "movhpd" "movshdup" "movhps"
  | 0x17 => pairName p "movhps" "movhpd"
  | 0x28 | 0x29 => pairName p "movaps" "movapd"
  | 0x2a => packedName p "cvtpi2ps" "cvtpi2pd" "cvtsi2ss" "cvtsi2sd"
  | 0x2b => pairName p "movntps" "movntpd"
  | 0x2c => packedName p "cvttps2pi" "cvttpd2pi" "cvttss2si" "cvttsd2si"
  | 0x2d => packedName p "cvtps2pi" "cvtpd2pi" "cvtss2si" "cvtsd2si"
  | 0x2e => pairName p "ucomiss" "ucomisd"
  | 0x2f => pairName p "comiss" "comisd"
  | 0x50 => pairName p "movmskps" "movmskpd"
  | 0x51 => packedName p "sqrtps" "sqrtpd" "sqrtss" "sqrtsd"
  | 0x52 => packedName p "rsqrtps" "rsqrtps" "rsqrtss" "rsqrtss"
  | 0x53 => packedName p "rcpps" "rcpps" "rcpss" "rcpss"
  | 0x54 => pairName p "andps" "andpd"
  | 0x55 => pairName p "andnps" "andnpd"
  | 0x56 => pairName p "orps" "orpd"
  | 0x57 => pairName p "xorps" "xorpd"
  | 0x58 => packedName p "addps" "addpd" "addss" "addsd"
  | 0x59 => packedName p "mulps" "mulpd" "mulss" "mulsd"
  | 0x5a => packedName p "cvtps2pd" "cvtpd2ps" "cvtss2sd" "cvtsd2ss"
  | 0x5b => packedName p "cvtdq2ps" "cvtps2dq" "cvttps2dq" "cvtdq2ps"
  | 0x5c => packedName p "subps" "subpd" "subss" "subsd"
  | 0x5d => packedName p "minps" "minpd" "minss" "minsd"
  | 0x5e => packedName p "divps" "divpd" "divss" "divsd"
  | 0x5f => packedName p "maxps" "maxpd" "maxss" "maxsd"
  | 0x6e => "movd"
  | 0x6f | 0x7f => packedName p "movq" "movdqa" "movdqu" "movq"
  | 0x70 => packedName p "pshufw" "pshufd" "pshufhw" "pshuflw"
  | 0x74 => "pcmpeqb"
  | 0x75 => "pcmpeqw"
  | 0x76 => "pcmpeqd"
  | 0x7e => packedName p "movd" "movd" "movq" "movd"
  | 0xc2 => packedName p "cmpps" "cmppd" "cmpss" "cmpsd"
  | 0xc6 => pairName p "shufps" "shufpd"
  | 0xd4 => "paddq"
  | 0xd6 => packedName p "movq" "movq" "movq2dq" "movdq2q"
  | 0xdb => "pand"
  | 0xe6 => packedName p "cvtpd2dq" "cvttpd2dq" "cvtdq2pd" "cvtpd2dq"
  | 0xe7 => pairName p "movntq" "movntdq"
  | 0xeb => "por"
  | 0xef => "pxor"
  | 0xfa => "psubd"
  | 0xfe => "paddd"
  | n => if 0x60 ≤ n ∧ n ≤ 0x6d then "punpck" else "simd"

end BinTrace.Opcode
