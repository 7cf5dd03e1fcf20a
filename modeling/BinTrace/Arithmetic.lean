/-!
Powers and sums of numbers. The instances given here come before those of algebraic structures, so
that a power or a sum is the same term whether the structures are at hand or not.
-/

namespace BinTrace

@[default_instance high]
instance natPow : Pow Nat Nat := instPowNat

@[default_instance high]
instance intPow : Pow Int Nat := instPowNat

instance natZero : Zero Nat := ⟨0⟩

end BinTrace
