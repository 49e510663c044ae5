import Mathlib

/-!
# Bytes

A byte is a number below 256. That there are any is what its literals rest on, and that equality
of bytes is decided is what membership in a list of them rests on.
-/

instance neZero_256 : NeZero 256 := ⟨by decide⟩

instance lawfulBEq_256 : @LawfulBEq (Fin 256) instBEqOfDecidableEq := inferInstance
