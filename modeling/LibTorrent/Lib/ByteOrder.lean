import LibTorrent.Lib.Decimal

namespace Lib.ByteOrder

open Lib.Decimal

/-- The order in which a machine keeps the bytes of a number. -/
inductive Endian
  | little
  | big
  deriving DecidableEq, Repr

def digits : ℕ → ℕ → Bytes
  | 0, _ => []
  | w + 1, n => UInt8.ofNat n :: digits w (n / 256)

def number : Bytes → ℕ
  | [] => 0
  | b :: s => b.toNat + 256 * number s

def store : Endian → ℕ → ℕ → Bytes
  | .little, w, n => digits w n
  | .big, w, n => (digits w n).reverse

def load : Endian → Bytes → ℕ
  | .little, s => number s
  | .big, s => number s.reverse

theorem length_digits (w n : ℕ) : (digits w n).length = w := by
  induction w generalizing n with
  | zero => rfl
  | succ w ih => rw [digits, List.length_cons, ih]

@[simp] theorem length_store (o : Endian) (w n : ℕ) : (store o w n).length = w := by
  cases o with
  | little => exact length_digits w n
  | big => rw [store, List.length_reverse, length_digits]

theorem number_digits (w n : ℕ) : number (digits w n) = n % 256 ^ w := by
  induction w generalizing n with
  | zero => rw [digits, number, pow_zero, Nat.mod_one]
  | succ w ih =>
    have hbyte : (UInt8.ofNat n).toNat = n % 256 := UInt8.toNat_ofNat'
    rw [digits, number, ih, hbyte, pow_succ', Nat.mod_mul]

theorem load_store (o : Endian) {w n : ℕ} (h : n < 256 ^ w) : load o (store o w n) = n := by
  cases o with
  | little => rw [store, load, number_digits, Nat.mod_eq_of_lt h]
  | big => rw [store, load, List.reverse_reverse, number_digits, Nat.mod_eq_of_lt h]

end Lib.ByteOrder
