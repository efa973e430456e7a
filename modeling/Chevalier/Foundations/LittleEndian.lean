import Mathlib

/-!
# Little-endian numbers

`toLeBytes w n` are the `w` low bytes of `n`, the lowest first, and `fromLeBytes` reads a number
back: a number of `w` bytes survives (`fromLeBytes_toLeBytes`).
-/

namespace Chevalier

/-- The `w` low bytes of a number, the lowest first. -/
def toLeBytes : (w n : Nat) → List UInt8
  | 0, _ => []
  | w + 1, n => UInt8.ofNat n :: toLeBytes w (n / 256)

/-- The number that bytes spell, the lowest byte first. -/
def fromLeBytes : List UInt8 → Nat
  | [] => 0
  | byte :: bytes => byte.toNat + 256 * fromLeBytes bytes

@[simp] theorem length_toLeBytes (w n : Nat) : (toLeBytes w n).length = w := by
  induction w generalizing n with
  | zero => rfl
  | succ _ ih => simp [toLeBytes, ih]

theorem fromLeBytes_toLeBytes_eq_mod (w n : Nat) :
    fromLeBytes (toLeBytes w n) = n % 256 ^ w := by
  induction w generalizing n with
  | zero => simp [toLeBytes, fromLeBytes, Nat.mod_one]
  | succ _ ih => rw [toLeBytes, fromLeBytes, ih, Nat.pow_succ', Nat.mod_mul, UInt8.toNat_ofNat']

/-- A number that fits is read back. -/
theorem fromLeBytes_toLeBytes {w n : Nat} (h : n < 256 ^ w) :
    fromLeBytes (toLeBytes w n) = n := by
  rw [fromLeBytes_toLeBytes_eq_mod, Nat.mod_eq_of_lt h]

end Chevalier
