import LinuxServer.Library.Memory
import Mathlib.Data.Nat.Digits.Lemmas

/-!
# Bytes and their halves

The masks and shifts that take a byte apart, in terms of natural numbers; and arrays of bytes as arrays of
nibbles, where the upper half of a byte comes before its lower half. A number is stored in such an array by
its digits, the lowest one first (`Stores`), and read back from the top (`readDown_stores`).
-/

namespace LinuxServer.Library

/-! ## One byte -/

/-- `b & 0x0f` -/
def lo (b : UInt8) : UInt8 := b &&& 0x0f

/-- `(b & 0xf0) >> 4` -/
def hi (b : UInt8) : UInt8 := (b &&& (0xf0 : UInt8)) >>> (4 : UInt8)

/-- `(b & 0xf0) | x` -/
def setLo (b x : UInt8) : UInt8 := (b &&& 0xf0) ||| x

/-- `(b & 0x0f) | (x << 4)` -/
def setHi (b x : UInt8) : UInt8 := (b &&& 0x0f) ||| (x <<< (4 : UInt8))

variable (b x : UInt8)

/-- The lower nibble. -/
theorem toNat_lo : (lo b).toNat = b.toNat % 16 := by
  rw [lo, UInt8.toNat_and]
  exact Nat.and_two_pow_sub_one_eq_mod b.toNat 4

/-- The upper half, where it is. -/
theorem toNat_upper : (b &&& (0xf0 : UInt8)).toNat = b.toNat / 16 * 16 := by
  have hall : ∀ i : Fin 256, i.val &&& 240 = i.val / 16 * 16 := by decide +kernel
  rw [UInt8.toNat_and]
  exact hall ⟨b.toNat, b.toNat_lt⟩

/-- The upper nibble. -/
theorem toNat_hi : (hi b).toNat = b.toNat / 16 := by
  rw [hi, UInt8.toNat_shiftRight, toNat_upper]
  show (b.toNat / 16 * 16) >>> 4 = b.toNat / 16
  rw [Nat.shiftRight_eq_div_pow]
  omega

variable {b x}

/-- The lower nibble is written, the upper one stays. -/
theorem toNat_setLo (hx : x.toNat < 16) : (setLo b x).toNat = b.toNat / 16 * 16 + x.toNat := by
  rw [setLo, UInt8.toNat_or, toNat_upper, Nat.mul_comm]
  exact (Nat.two_pow_add_eq_or_of_lt (i := 4) hx _).symm

/-- The upper nibble is written, the lower one stays. -/
theorem toNat_setHi (hx : x.toNat < 16) : (setHi b x).toNat = x.toNat * 16 + b.toNat % 16 := by
  have hshift : (x <<< (4 : UInt8)).toNat = x.toNat * 16 := by
    rw [UInt8.toNat_shiftLeft]
    show x.toNat <<< 4 % 2 ^ 8 = x.toNat * 16
    rw [Nat.shiftLeft_eq]
    omega
  have hlo : (b &&& (0x0f : UInt8)).toNat = b.toNat % 16 := toNat_lo b
  rw [setHi, UInt8.toNat_or, hlo, hshift, Nat.or_comm, Nat.mul_comm]
  exact (Nat.two_pow_add_eq_or_of_lt (i := 4) (Nat.mod_lt _ (by decide)) _).symm

/-! ### The highest bit -/

/-- The lower seven bits. -/
theorem toNat_and_0x7f (b : UInt8) : (b &&& 0x7f).toNat = b.toNat % 128 := by
  rw [UInt8.toNat_and]
  exact Nat.and_two_pow_sub_one_eq_mod b.toNat 7

/-- The highest bit is clear. -/
theorem and_0x80_eq_zero (b : UInt8) : b &&& 0x80 = 0 ↔ b.toNat < 128 := by
  have hall : ∀ i : Fin 256, i.val &&& 128 = i.val / 128 * 128 := by decide +kernel
  have hand : (b &&& 0x80).toNat = b.toNat / 128 * 128 := by
    rw [UInt8.toNat_and]
    exact hall ⟨b.toNat, b.toNat_lt⟩
  rw [← UInt8.toNat_inj, hand]
  show b.toNat / 128 * 128 = 0 ↔ b.toNat < 128
  omega

/-- The highest bit is set. -/
theorem toNat_or_0x80 (hb : b.toNat < 128) : (b ||| 0x80).toNat = b.toNat + 128 := by
  rw [UInt8.toNat_or, Nat.or_comm, Nat.add_comm]
  exact (Nat.two_pow_add_eq_or_of_lt (i := 7) hb 1).symm

/-! ## Arrays of nibbles -/

/-- Nibble `j`: the upper half of byte `j / 2` if `j` is even, and its lower half if it is odd. -/
def nib (data : Nat → UInt8) (j : Nat) : Nat :=
  if j % 2 = 1 then (lo (data (j / 2))).toNat else (hi (data (j / 2))).toNat

/-- Overwrite nibble `j`. -/
def setNib (data : Nat → UInt8) (j : Nat) (x : UInt8) : Nat → UInt8 :=
  Function.update data (j / 2) (if j % 2 = 1 then setLo (data (j / 2)) x else setHi (data (j / 2)) x)

variable {data : Nat → UInt8} {i j n : Nat}

theorem nib_lt : nib data j < 16 := by
  unfold nib
  split
  · rw [toNat_lo]
    omega
  · rw [toNat_hi]
    have := (data (j / 2)).toNat_lt
    omega

/-- Writing a nibble changes no other. -/
theorem nib_setNib (hx : x.toNat < 16) :
    nib (setNib data j x) i = if i = j then x.toNat else nib data i := by
  by_cases hb : i / 2 = j / 2
  · unfold nib setNib
    rw [hb, Function.update_self]
    by_cases hj : j % 2 = 1
    · rw [if_pos hj]
      by_cases hi : i % 2 = 1
      · rw [if_pos hi, if_pos (show i = j by omega), toNat_lo, toNat_setLo hx]
        omega
      · rw [if_neg hi, if_neg (show i ≠ j by omega), if_neg hi, toNat_hi, toNat_hi, toNat_setLo hx]
        omega
    · rw [if_neg hj]
      by_cases hi : i % 2 = 1
      · rw [if_pos hi, if_neg (show i ≠ j by omega), if_pos hi, toNat_lo, toNat_lo, toNat_setHi hx]
        omega
      · rw [if_neg hi, if_pos (show i = j by omega), toNat_hi, toNat_setHi hx]
        omega
  · have hne : i ≠ j := fun h => hb (by rw [h])
    rw [if_neg hne]
    unfold nib setNib
    rw [Function.update_of_ne hb]

/-! ## Numbers in an array of nibbles -/

/-- The nibbles from `j` on are the digits of `n`, the lowest first, and `k` of them. -/
def Stores (data : Nat → UInt8) (j k n : Nat) : Prop :=
  n < 16 ^ k ∧ ∀ i < k, nib data (j + i) = n / 16 ^ i % 16

/-- Reading the first `k` of the nibbles from `j` on, from the top. -/
def readDown (data : Nat → UInt8) (j : Nat) : Nat → Nat → Nat
  | 0, number => number
  | k + 1, number => readDown data j k (number * 16 + nib data (j + k))

/-- The loop that puts nibbles together, the highest first. -/
theorem readDown_eq {k number : Nat} (h : ∀ i < k, nib data (j + i) = n / 16 ^ i % 16) :
    readDown data j k number = number * 16 ^ k + n % 16 ^ k := by
  induction k generalizing number with
  | zero => simp [readDown, Nat.mod_one]
  | succ k ih =>
      rw [readDown, ih fun i hi => h i (Nat.lt_succ_of_lt hi), h k (Nat.lt_succ_self k)]
      have hsplit : n % 16 ^ (k + 1) = n % 16 ^ k + 16 ^ k * (n / 16 ^ k % 16) := by
        rw [Nat.pow_succ, Nat.mod_mul]
      rw [hsplit]
      ring

/-- The number that is stored is read back. -/
theorem readDown_stores {k : Nat} (h : Stores data j k n) : readDown data j k 0 = n := by
  rw [readDown_eq h.2, Nat.mod_eq_of_lt h.1]
  omega

/-- Whatever is read is small enough. -/
theorem readDown_lt (k : Nat) {number : Nat} : readDown data j k number < (number + 1) * 16 ^ k := by
  induction k generalizing number with
  | zero => simp [readDown]
  | succ k ih =>
      have hnib : nib data (j + k) < 16 := nib_lt
      calc readDown data j (k + 1) number
          = readDown data j k (number * 16 + nib data (j + k)) := rfl
        _ < (number * 16 + nib data (j + k) + 1) * 16 ^ k := ih
        _ ≤ ((number + 1) * 16) * 16 ^ k := Nat.mul_le_mul_right _ (by omega)
        _ = (number + 1) * 16 ^ (k + 1) := by ring

end LinuxServer.Library
