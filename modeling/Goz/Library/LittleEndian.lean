import Mathlib.Tactic

namespace LittleEndian

open List

def number : List UInt8 → Nat
  | [] => 0
  | b :: rest => b.toNat + 256 * number rest

def bytes : Nat → Nat → List UInt8
  | 0, _ => []
  | width + 1, n => UInt8.ofNat n :: bytes width (n / 256)

@[simp] theorem length_bytes (width n : Nat) : (bytes width n).length = width := by
  induction width generalizing n with
  | zero => rfl
  | succ width ih => rw [bytes, length_cons, ih]

theorem bytes_eq_map (width n : Nat) : bytes width n = (range width).map fun i => UInt8.ofNat (n / 256 ^ i) := by
  induction width generalizing n with
  | zero => rfl
  | succ width ih =>
    rw [bytes, ih, range_succ_eq_map, map_cons, map_map, pow_zero, Nat.div_one]
    congr 1
    apply map_congr_left
    intro i _
    rw [Function.comp_apply, Nat.div_div_eq_div_mul, Nat.pow_succ, Nat.mul_comm]

theorem number_bytes (width n : Nat) : number (bytes width n) = n % 256 ^ width := by
  induction width generalizing n with
  | zero => rw [bytes, number, pow_zero, Nat.mod_one]
  | succ width ih =>
    rw [show 256 ^ (width + 1) = 256 * 256 ^ width from Nat.pow_succ', Nat.mod_mul, bytes, number, ih, UInt8.toNat_ofNat']

theorem number_lt (list : List UInt8) : number list < 256 ^ list.length := by
  induction list with
  | nil => decide
  | cons b rest ih =>
    have bound := b.toNat_lt
    rw [number, length_cons, Nat.pow_succ]
    omega

theorem bytes_number (list : List UInt8) : bytes list.length (number list) = list := by
  induction list with
  | nil => rfl
  | cons b rest ih =>
    have bound := b.toNat_lt
    have high : (b.toNat + 256 * number rest) / 256 = number rest := by omega
    have low : UInt8.ofNat (b.toNat + 256 * number rest) = b := by
      apply UInt8.toNat_inj.mp
      rw [UInt8.toNat_ofNat']
      omega
    rw [number, length_cons, bytes, high, low, ih]

def word (list : List UInt8) (at_ width : Nat) : Nat := number ((list.drop at_).take width)

variable {width at_ other n : Nat} {rest : List UInt8}

@[simp] theorem word_zero_bytes : word (bytes width n ++ rest) 0 width = n % 256 ^ width := by
  rw [word, drop_zero, take_left' (length_bytes width n), number_bytes]

@[simp] theorem word_bytes_self : word (bytes width n) 0 width = n % 256 ^ width := by
  rw [← append_nil (bytes width n), word_zero_bytes]

@[simp] theorem word_bytes_append (past : width ≤ at_) : word (bytes width n ++ rest) at_ other = word rest (at_ - width) other := by
  rw [word, word, drop_append, drop_eq_nil_of_le (by simpa using past), length_bytes, nil_append]

@[simp] theorem word_take {list : List UInt8} (within : at_ + width ≤ n) : word (list.take n) at_ width = word list at_ width := by
  rw [word, word, drop_take, take_take, Nat.min_eq_left (by omega)]

end LittleEndian
