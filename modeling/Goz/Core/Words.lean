import Goz.Core.Codec
import Goz.Library.LittleEndian

namespace Goz

open LittleEndian List

def u16 (v : UInt16) : Bytes := bytes 2 v.toNat

def u32 (v : UInt32) : Bytes := bytes 4 v.toNat

def u64 (v : UInt64) : Bytes := bytes 8 v.toNat

def i64 (v : Int64) : Bytes := u64 v.toUInt64

def u16At (list : Bytes) (at_ : Nat) : UInt16 := UInt16.ofNat (word list at_ 2)

def u32At (list : Bytes) (at_ : Nat) : UInt32 := UInt32.ofNat (word list at_ 4)

def u64At (list : Bytes) (at_ : Nat) : UInt64 := UInt64.ofNat (word list at_ 8)

def i64At (list : Bytes) (at_ : Nat) : Int64 := (u64At list at_).toInt64

@[simp] theorem length_u16 (v : UInt16) : (u16 v).length = 2 := length_bytes 2 _

@[simp] theorem length_u32 (v : UInt32) : (u32 v).length = 4 := length_bytes 4 _

@[simp] theorem length_u64 (v : UInt64) : (u64 v).length = 8 := length_bytes 8 _

@[simp] theorem length_i64 (v : Int64) : (i64 v).length = 8 := length_bytes 8 _

@[simp] theorem ofNat_mod16 (v : UInt16) : UInt16.ofNat (v.toNat % 256 ^ 2) = v := by
  rw [Nat.mod_eq_of_lt (show v.toNat < 256 ^ 2 from v.toNat_lt), UInt16.ofNat_toNat]

@[simp] theorem ofNat_mod32 (v : UInt32) : UInt32.ofNat (v.toNat % 256 ^ 4) = v := by
  rw [Nat.mod_eq_of_lt (show v.toNat < 256 ^ 4 from v.toNat_lt), UInt32.ofNat_toNat]

@[simp] theorem ofNat_mod64 (v : UInt64) : UInt64.ofNat (v.toNat % 256 ^ 8) = v := by
  rw [Nat.mod_eq_of_lt (show v.toNat < 256 ^ 8 from v.toNat_lt), UInt64.ofNat_toNat]

theorem u64At_u64 (v : UInt64) : u64At (u64 v) 0 = v := by
  rw [u64At, u64, word_bytes_self, ofNat_mod64]

def maxNameUtf16Bytes : Nat := 510

def nameBytesMax : Nat := 765

def utf16Units : Bytes → List UInt16
  | a :: b :: rest => UInt16.ofNat (number [a, b]) :: utf16Units rest
  | _ => []

def utf16Bytes (units : List UInt16) : Bytes := units.flatMap u16

@[simp] theorem length_utf16Bytes (units : List UInt16) : (utf16Bytes units).length = 2 * units.length := by
  simp [utf16Bytes, Nat.mul_comm]

@[simp] theorem utf16Units_utf16Bytes (units : List UInt16) : utf16Units (utf16Bytes units) = units := by
  induction units with
  | nil => rfl
  | cons unit rest ih =>
    have pair : utf16Bytes (unit :: rest) = UInt8.ofNat unit.toNat :: UInt8.ofNat (unit.toNat / 256) :: utf16Bytes rest := rfl
    have whole : number [UInt8.ofNat unit.toNat, UInt8.ofNat (unit.toNat / 256)] = unit.toNat % 256 ^ 2 := number_bytes 2 _
    rw [pair, utf16Units, whole, ofNat_mod16, ih]

theorem length_utf16Units (list : Bytes) : 2 * (utf16Units list).length ≤ list.length := by
  fun_induction utf16Units list with
  | case1 a b rest ih =>
    simp only [length_cons]
    omega
  | case2 => simp

namespace Wtf8

theorem utf16CodePoints_le (units : List UInt16) : ∀ cp ∈ (utf16CodePoints units).1, cp ≤ 0x10FFFF := by
  have plain : ∀ u : UInt16, u.toNat ≤ 0x10FFFF := by
    intro u
    have bound := u.toNat_lt
    omega
  fun_induction utf16CodePoints units with
  | case1 => nofun
  | case2 u =>
    intro cp mem
    rw [mem_singleton.mp mem]
    exact plain u
  | case3 u lo rest pair following ih =>
    intro cp mem
    rcases mem_cons.mp mem with same | later
    · simp only [isHighSurrogate, isLowSurrogate, Bool.and_eq_true, decide_eq_true_eq] at pair
      rw [same]
      show (_ : Nat) ≤ _
      omega
    · exact ih cp later
  | case4 u lo rest pair following ih =>
    intro cp mem
    rcases mem_cons.mp mem with same | later
    · rw [same]
      exact plain u
    · exact ih cp later

theorem wellFormed_fromUtf16 (units : List UInt16) : WellFormed (fromUtf16 units).1 :=
  ⟨_, utf16CodePoints_le units, rfl⟩

theorem length_encodeCodePoint (cp : CodePoint) : (encodeCodePoint cp).length ≤ if cp < 0x10000 then 3 else 4 := by
  unfold encodeCodePoint
  split
  · split <;> simp
  · split
    · split <;> simp
    · split <;> simp

theorem length_fromUtf16 (units : List UInt16) : (fromUtf16 units).1.length ≤ 3 * units.length := by
  show (encode (utf16CodePoints units).1).length ≤ _
  fun_induction utf16CodePoints units with
  | case1 => simp [encode]
  | case2 u =>
    have one := length_encodeCodePoint u.toNat
    have bound := u.toNat_lt
    rw [if_pos (by omega)] at one
    simpa [encode] using one
  | case3 u lo rest pair following ih =>
    have one := length_encodeCodePoint (0x10000 + ((u.toNat - 0xD800) * 1024 + (lo.toNat - 0xDC00)))
    rw [if_neg (by show ¬ ((_ : Nat) < _); omega)] at one
    show (encode (_ :: (utf16CodePoints rest).1)).length ≤ _
    simp only [encode, flatMap_cons, length_append, length_cons] at ih ⊢
    omega
  | case4 u lo rest pair following ih =>
    have one := length_encodeCodePoint u.toNat
    have bound := u.toNat_lt
    rw [if_pos (by omega)] at one
    show (encode (_ :: (utf16CodePoints (lo :: rest)).1)).length ≤ _
    simp only [encode, flatMap_cons, length_append, length_cons] at ih ⊢
    omega

end Wtf8

end Goz
