import Mathlib

/-!
# Little-endian words

`leBytes k n` are the `k` low bytes of `n`, the lowest first, and `ofLe` reads
them back:

    ofLe (leBytes k n) = n % 256 ^ k                                   (ofLe_leBytes)

A negative number is written as its remainder, and `Int.bmod` finds it again.
-/

namespace Bytes

def leBytes : Nat → Nat → List UInt8
  | 0, _ => []
  | k + 1, n => UInt8.ofNat n :: leBytes k (n / 256)

def ofLe : List UInt8 → Nat
  | [] => 0
  | b :: bs => b.toNat + 256 * ofLe bs

@[simp] theorem length_leBytes (k n : Nat) : (leBytes k n).length = k := by
  induction k generalizing n with
  | zero => rfl
  | succ k ih => rw [leBytes, List.length_cons, ih]

theorem ofLe_leBytes (k n : Nat) : ofLe (leBytes k n) = n % 256 ^ k := by
  induction k generalizing n with
  | zero => simp [leBytes, ofLe, Nat.mod_one]
  | succ k ih =>
    have hb : (UInt8.ofNat n).toNat = n % 256 := UInt8.toNat_ofNat'
    rw [leBytes, ofLe, ih, hb, Nat.pow_succ, Nat.mul_comm (256 ^ k) 256, Nat.mod_mul]

theorem ofLe_leBytes_of_lt {k n : Nat} (h : n < 256 ^ k) : ofLe (leBytes k n) = n := by
  rw [ofLe_leBytes, Nat.mod_eq_of_lt h]

/-- A number of two's complement comes back from its remainder. -/
theorem bmod_ofLe_leBytes {k : Nat} {x : Int} (hlo : -(256 ^ k : Nat) ≤ 2 * x)
    (hhi : 2 * x < (256 ^ k : Nat)) :
    (ofLe (leBytes k (x % (256 ^ k : Nat)).toNat) : Int).bmod (256 ^ k) = x := by
  have hpos : (0 : Int) < (256 ^ k : Nat) := by
    have : 0 < 256 ^ k := Nat.pow_pos (by decide)
    omega
  have hr := Int.emod_nonneg x (ne_of_gt hpos)
  have hl := Int.emod_lt_of_pos x hpos
  rw [ofLe_leBytes_of_lt (by omega), Int.toNat_of_nonneg hr, Int.emod_bmod]
  exact Int.bmod_eq_of_le_mul_two (by omega) (by omega)

end Bytes
