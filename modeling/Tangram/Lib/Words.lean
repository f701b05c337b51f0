import Mathlib

/-!
# Machine words

What an assignment between a 32 bit `int` and a 64 bit `size_t` makes of a value.
-/

namespace Words

/-- A `size_t` that is assigned to an `int`. -/
def toInt (n : Nat) : Int := (n : Int).bmod (2 ^ 32)

/-- An `int` that is used as a `size_t`. -/
def toSize (i : Int) : Nat := (i % 2 ^ 64).toNat

variable {n : Nat}

theorem toInt_of_lt (h : n < 2 ^ 31) : toInt n = n :=
  Int.bmod_eq_of_le_mul_two (by omega) (by omega)

theorem toSize_ofNat (h : n < 2 ^ 64) : toSize (n : Int) = n := by
  unfold toSize
  omega

theorem toSize_toInt (h : n < 2 ^ 31) : toSize (toInt n) = n := by
  rw [toInt_of_lt h]
  exact toSize_ofNat (by omega)

theorem toInt_lt (n : Nat) : toInt n < 2 ^ 31 := Int.bmod_lt (by decide)

theorem toInt_neg (hlo : 2 ^ 31 ≤ n) (hhi : n < 2 ^ 32) : toInt n < 0 := by
  have : toInt n = n - (2 ^ 32 : Nat) :=
    (Int.sub_bmod_right _ _).symm.trans (Int.bmod_eq_of_le_mul_two (by omega) (by omega))
  omega

theorem toSize_of_nonneg {i : Int} (h : 0 ≤ i) (hi : i < 2 ^ 64) : (toSize i : Int) = i := by
  unfold toSize
  omega

theorem toSize_neg_one : toSize (-1) = 2 ^ 64 - 1 := rfl

attribute [irreducible] toInt toSize

end Words
