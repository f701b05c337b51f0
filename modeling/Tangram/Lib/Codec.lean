import Mathlib

/-!
# Reading back what was written

A `Codec B α` writes a value as a non-empty word over `B` and reads it off the
front of a longer word.  A buffer is written value after value and read until
the word is used up:

    decodeAll c (encodeAll c l) = l                    (decodeAll_encodeAll)
-/

structure Codec (B α : Type) where
  enc : α → List B
  dec : List B → Option (α × List B)
  dec_enc : ∀ a rest, dec (enc a ++ rest) = some (a, rest)
  enc_ne_nil : ∀ a, enc a ≠ []

namespace Codec

variable {B α β : Type}

/-- One value after the other. -/
def prod (c : Codec B α) (d : Codec B β) : Codec B (α × β) where
  enc x := c.enc x.1 ++ d.enc x.2
  dec bin := (c.dec bin).bind fun x => (d.dec x.2).map fun y => ((x.1, y.1), y.2)
  dec_enc x rest := by simp [List.append_assoc, c.dec_enc, d.dec_enc]
  enc_ne_nil x := by simp [c.enc_ne_nil]

def encodeAll (c : Codec B α) (l : List α) : List B := l.flatMap c.enc

/-- Read values while there is something left; every value uses up a letter, so `fuel` need not
exceed the length of the word. -/
def decodeFuel (c : Codec B α) : Nat → List B → List α
  | 0, _ => []
  | _ + 1, [] => []
  | fuel + 1, b :: bin =>
    match c.dec (b :: bin) with
    | none => []
    | some (a, rest) => a :: decodeFuel c fuel rest

def decodeAll (c : Codec B α) (bin : List B) : List α := c.decodeFuel bin.length bin

theorem decodeFuel_encodeAll (c : Codec B α) (l : List α) (fuel : Nat)
    (h : (c.encodeAll l).length ≤ fuel) : c.decodeFuel fuel (c.encodeAll l) = l := by
  induction l generalizing fuel with
  | nil => cases fuel <;> rfl
  | cons a l ih =>
    have hcons : c.encodeAll (a :: l) = c.enc a ++ c.encodeAll l := rfl
    obtain ⟨b, bin, hb⟩ := List.exists_cons_of_ne_nil (c.enc_ne_nil a)
    rw [hcons, List.length_append, hb, List.length_cons] at h
    cases fuel with
    | zero => omega
    | succ fuel =>
      have hdec : c.dec (b :: (bin ++ c.encodeAll l)) = some (a, c.encodeAll l) := by
        rw [← List.cons_append, ← hb]
        exact c.dec_enc a _
      rw [hcons, hb, List.cons_append, decodeFuel, hdec]
      show a :: c.decodeFuel fuel (c.encodeAll l) = a :: l
      rw [ih fuel (by omega)]

theorem decodeAll_encodeAll (c : Codec B α) (l : List α) : c.decodeAll (c.encodeAll l) = l :=
  c.decodeFuel_encodeAll l _ (Nat.le_refl _)

end Codec
