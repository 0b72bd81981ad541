import Mathlib.Data.List.Basic
import Mathlib.Data.UInt
import Mathlib.Tactic.Ring

/-!
# Fixed-width little-endian numbers in byte lists

Writers produce a stated number of bytes and keep the value modulo the width;
readers take any byte list. The two are inverse on bytes that fit.
-/

set_option autoImplicit false

namespace LittleEndian

abbrev Bytes := List UInt8

def write : ℕ → ℕ → Bytes
  | 0, _ => []
  | k+1, n => UInt8.ofNat n :: write k (n/256)

def read : Bytes → ℕ
  | [] => 0
  | b::bs => b.toNat+256*read bs

@[simp] theorem write_length (k n : ℕ) : (write k n).length = k := by
  induction k generalizing n with
  | zero => rfl
  | succ k ih => simp [write, ih]

theorem read_write (k n : ℕ) : read (write k n) = n%256^k := by
  induction k generalizing n with
  | zero => simp [write, read, Nat.mod_one]
  | succ k ih =>
    have hb : (UInt8.ofNat n).toNat = n%256 := UInt8.toNat_ofNat'
    rw [write, read, ih, hb, pow_succ', Nat.mod_mul]

theorem read_write_fits {k n : ℕ} (h : n < 256^k) : read (write k n) = n := by
  rw [read_write, Nat.mod_eq_of_lt h]

theorem read_lt (bs : Bytes) : read bs < 256^bs.length := by
  induction bs with
  | nil => simp [read]
  | cons b bs ih =>
    have hb := b.toNat_lt
    rw [read, List.length_cons, pow_succ']
    omega

theorem write_read (bs : Bytes) : write bs.length (read bs) = bs := by
  induction bs with
  | nil => rfl
  | cons b bs ih =>
    have hb := b.toNat_lt
    have hd : (b.toNat+256*read bs)/256 = read bs := by omega
    rw [read, List.length_cons, write, hd, ih]
    congr 1
    apply UInt8.toNat_inj.mp
    rw [UInt8.toNat_ofNat']
    omega

end LittleEndian
