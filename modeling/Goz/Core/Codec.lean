import Goz.Core.Text

namespace Goz.Wtf8

open List

variable {cp : Nat} {bytes : Bytes} {cps : List CodePoint} {right left : Bytes} {b : UInt8}

theorem toNat_byte {n : Nat} (small : n < 256) : (UInt8.ofNat n).toNat = n := by
  rw [UInt8.toNat_ofNat']
  omega

theorem continuation_cons {count x : Nat} (small : x < 64) (rest : Bytes) :
    continuation (count + 1) cp (UInt8.ofNat (0x80 + x) :: rest) = continuation count (cp * 64 + x) rest := by
  have byte : (UInt8.ofNat (0x80 + x)).toNat = 0x80 + x := toNat_byte (by omega)
  rw [continuation, byte, if_pos (by omega), show (0x80 + x) % 64 = x by omega]

theorem nextCodePoint_encode (scalar : cp ≤ 0x10FFFF) :
    ∃ b tail, encodeCodePoint cp = b :: tail ∧
      ∀ rest, nextCodePoint b (tail ++ rest) = (cp, tail.length + 1) := by
  unfold encodeCodePoint
  by_cases one : cp < 0x80
  · have byte : (UInt8.ofNat cp).toNat = cp := toNat_byte (by omega)
    refine ⟨_, _, if_pos one, fun rest => ?_⟩
    have first : lead (UInt8.ofNat cp) = some (1, cp) := by rw [lead, byte, if_pos one]
    have valid : ¬ (cp < minimal 1 ∨ cp > 0x10FFFF) := by
      simp only [minimal]
      omega
    simp only [nextCodePoint, first, Nat.sub_self, continuation]
    exact if_neg valid
  rw [if_neg one]
  by_cases two : cp < 0x800
  · have byte : (UInt8.ofNat (0xC0 + cp / 64)).toNat = 0xC0 + cp / 64 := toNat_byte (by omega)
    refine ⟨_, _, if_pos two, fun rest => ?_⟩
    have valid : ¬ (cp < minimal 2 ∨ cp > 0x10FFFF) := by
      simp only [minimal]
      omega
    have first : lead (UInt8.ofNat (0xC0 + cp / 64)) = some (2, cp / 64) := by
      rw [lead, byte, if_neg (by omega), if_neg (by omega), if_pos (by omega), show (0xC0 + cp / 64) % 32 = cp / 64 by omega]
    simp only [nextCodePoint, first, cons_append, nil_append]
    rw [continuation_cons (by omega), continuation, show cp / 64 * 64 + cp % 64 = cp by omega]
    exact if_neg valid
  rw [if_neg two]
  by_cases three : cp < 0x10000
  · have byte : (UInt8.ofNat (0xE0 + cp / 4096)).toNat = 0xE0 + cp / 4096 := toNat_byte (by omega)
    refine ⟨_, _, if_pos three, fun rest => ?_⟩
    have valid : ¬ (cp < minimal 3 ∨ cp > 0x10FFFF) := by
      simp only [minimal]
      omega
    have first : lead (UInt8.ofNat (0xE0 + cp / 4096)) = some (3, cp / 4096) := by
      rw [lead, byte, if_neg (by omega), if_neg (by omega), if_neg (by omega), if_pos (by omega),
        show (0xE0 + cp / 4096) % 16 = cp / 4096 by omega]
    simp only [nextCodePoint, first, cons_append, nil_append]
    rw [continuation_cons (by omega), continuation_cons (by omega), continuation,
      show (cp / 4096 * 64 + cp / 64 % 64) * 64 + cp % 64 = cp by omega]
    exact if_neg valid
  · have byte : (UInt8.ofNat (0xF0 + cp / 262144)).toNat = 0xF0 + cp / 262144 := toNat_byte (by omega)
    refine ⟨_, _, if_neg three, fun rest => ?_⟩
    have valid : ¬ (cp < minimal 4 ∨ cp > 0x10FFFF) := by
      simp only [minimal]
      omega
    have first : lead (UInt8.ofNat (0xF0 + cp / 262144)) = some (4, cp / 262144) := by
      rw [lead, byte, if_neg (by omega), if_neg (by omega), if_neg (by omega), if_neg (by omega), if_pos (by omega),
        show (0xF0 + cp / 262144) % 8 = cp / 262144 by omega]
    simp only [nextCodePoint, first, cons_append, nil_append]
    rw [continuation_cons (by omega), continuation_cons (by omega), continuation_cons (by omega), continuation,
      show ((cp / 262144 * 64 + cp / 4096 % 64) * 64 + cp / 64 % 64) * 64 + cp % 64 = cp by omega]
    exact if_neg valid

theorem nextCodePoint_le (b : UInt8) (rest : Bytes) : (nextCodePoint b rest).1 ≤ 0x10FFFF := by
  unfold nextCodePoint
  split
  · decide
  · split
    · decide
    · split
      · decide
      case isFalse valid =>
        push Not at valid
        exact valid.2

theorem codePointsFuel_eq {fuel fuel' : Nat} (enough : bytes.length ≤ fuel)
    (enough' : bytes.length ≤ fuel') : codePointsFuel fuel bytes = codePointsFuel fuel' bytes := by
  induction fuel generalizing bytes fuel' with
  | zero =>
    obtain rfl := eq_nil_of_length_eq_zero (Nat.le_zero.mp enough)
    cases fuel' <;> rfl
  | succ fuel ih =>
    cases bytes with
    | nil => cases fuel' <;> rfl
    | cons b rest =>
      cases fuel' with
      | zero => simp at enough'
      | succ fuel' =>
        simp only [length_cons, Nat.add_le_add_iff_right] at enough enough'
        have shorter := (drop_sublist ((nextCodePoint b rest).2 - 1) rest).length_le
        simp only [codePointsFuel]
        rw [ih (shorter.trans enough) (shorter.trans enough')]

@[simp] theorem codePoints_nil : codePoints [] = [] := rfl

theorem codePoints_cons (b : UInt8) (rest : Bytes) :
    codePoints (b :: rest) =
      (nextCodePoint b rest).1 :: codePoints (rest.drop ((nextCodePoint b rest).2 - 1)) := by
  have shorter := (drop_sublist ((nextCodePoint b rest).2 - 1) rest).length_le
  rw [codePoints, length_cons, codePointsFuel]
  simp only [codePoints]
  rw [codePointsFuel_eq shorter le_rfl]

theorem codePoints_le (bytes : Bytes) : ∀ cp ∈ codePoints bytes, cp ≤ 0x10FFFF := by
  unfold codePoints
  generalize bytes.length = fuel
  induction fuel generalizing bytes with
  | zero => simp [codePointsFuel]
  | succ fuel ih =>
    cases bytes with
    | nil => simp [codePointsFuel]
    | cons b rest =>
      simp only [codePointsFuel, mem_cons]
      rintro cp (rfl | mem)
      · exact nextCodePoint_le b rest
      · exact ih _ cp mem

def WellFormed (bytes : Bytes) : Prop := ∃ cps : List CodePoint, (∀ cp ∈ cps, cp ≤ 0x10FFFF) ∧ bytes = encode cps

theorem encode_append (left right : List CodePoint) : encode (left ++ right) = encode left ++ encode right := by
  simp [encode]

theorem codePoints_encode_append (scalars : ∀ cp ∈ cps, cp ≤ 0x10FFFF) (rest : Bytes) :
    codePoints (encode cps ++ rest) = cps ++ codePoints rest := by
  induction cps with
  | nil => rfl
  | cons cp cps ih =>
    obtain ⟨b, tail, bytes, read⟩ := nextCodePoint_encode (scalars cp (by simp))
    have whole : encode (cp :: cps) ++ rest = b :: (tail ++ (encode cps ++ rest)) := by simp [encode, bytes]
    rw [whole, codePoints_cons, read, Nat.add_sub_cancel, drop_left, ih fun c mem => scalars c (by simp [mem])]
    rfl

theorem codePoints_encode (scalars : ∀ cp ∈ cps, cp ≤ 0x10FFFF) : codePoints (encode cps) = cps := by
  simpa using codePoints_encode_append scalars []

theorem WellFormed.encode_codePoints (wellFormed : WellFormed bytes) : encode (codePoints bytes) = bytes := by
  obtain ⟨cps, scalars, rfl⟩ := wellFormed
  rw [codePoints_encode scalars]

theorem WellFormed.append (first : WellFormed left) (second : WellFormed right) : WellFormed (left ++ right) := by
  obtain ⟨cps, scalars, rfl⟩ := first
  obtain ⟨cps', scalars', rfl⟩ := second
  refine ⟨cps ++ cps', ?_, (encode_append cps cps').symm⟩
  simp only [mem_append]
  rintro cp (mem | mem)
  · exact scalars cp mem
  · exact scalars' cp mem

theorem wellFormed_nil : WellFormed [] := ⟨[], by simp, rfl⟩

theorem wellFormed_encodeCodePoint {cp : CodePoint} (scalar : cp ≤ 0x10FFFF) : WellFormed (encodeCodePoint cp) :=
  ⟨[cp], by simpa using scalar, by simp [encode]⟩

theorem wellFormed_ascii (ascii : ∀ b ∈ bytes, b.toNat < 0x80) : WellFormed bytes := by
  induction bytes with
  | nil => exact wellFormed_nil
  | cons b rest ih =>
    have small := ascii b (by simp)
    have here : encodeCodePoint b.toNat = [b] := by
      rw [encodeCodePoint, if_pos small]
      simp
    have first : WellFormed [b] := here ▸ wellFormed_encodeCodePoint (show b.toNat ≤ 0x10FFFF by omega)
    exact first.append (ih fun c mem => ascii c (by simp [mem]))

theorem encodeCodePoint_low (low : cp < 0x80) : encodeCodePoint cp = [UInt8.ofNat cp] := if_pos low

theorem encodeCodePoint_high (high : 0x80 ≤ cp) (scalar : cp ≤ 0x10FFFF) : ∀ b ∈ encodeCodePoint cp, 0x80 ≤ b.toNat := by
  have byte : ∀ n, 0x80 ≤ n → n < 0x100 → 0x80 ≤ (UInt8.ofNat n).toNat := by
    intro n large small
    rw [toNat_byte small]
    exact large
  unfold encodeCodePoint
  rw [if_neg (show ¬ cp < 0x80 by omega)]
  by_cases two : cp < 0x800
  · rw [if_pos two]
    simp only [mem_cons, not_mem_nil, or_false, forall_eq_or_imp, forall_eq]
    exact ⟨byte _ (by omega) (by omega), byte _ (by omega) (by omega)⟩
  rw [if_neg two]
  by_cases three : cp < 0x10000
  · rw [if_pos three]
    simp only [mem_cons, not_mem_nil, or_false, forall_eq_or_imp, forall_eq]
    exact ⟨byte _ (by omega) (by omega), byte _ (by omega) (by omega), byte _ (by omega) (by omega)⟩
  · rw [if_neg three]
    simp only [mem_cons, not_mem_nil, or_false, forall_eq_or_imp, forall_eq]
    exact ⟨byte _ (by omega) (by omega), byte _ (by omega) (by omega), byte _ (by omega) (by omega), byte _ (by omega) (by omega)⟩

theorem mem_encode_low {cps : List Nat} (scalars : ∀ cp ∈ cps, cp ≤ 0x10FFFF) (low : b.toNat < 0x80) :
    b ∈ encode cps ↔ b.toNat ∈ cps := by
  rw [encode, mem_flatMap]
  constructor
  · rintro ⟨cp, mem, inside⟩
    by_cases small : cp < 0x80
    · rw [encodeCodePoint_low small, mem_singleton] at inside
      have value : (UInt8.ofNat cp).toNat = cp := toNat_byte (Nat.lt_trans small (by decide))
      rw [inside, value]
      exact mem
    · have high := encodeCodePoint_high (Nat.le_of_not_lt small) (scalars cp mem) b inside
      omega
  · intro mem
    refine ⟨b.toNat, mem, ?_⟩
    rw [encodeCodePoint_low low]
    simp

theorem WellFormed.split (whole : WellFormed (left ++ b :: right)) (low : b.toNat < 0x80) :
    WellFormed left ∧ WellFormed right := by
  obtain ⟨cps, scalars, bytes⟩ := whole
  induction cps generalizing left with
  | nil => simp [encode] at bytes
  | cons cp rest ih =>
    have scalar := scalars cp mem_cons_self
    have others : ∀ c ∈ rest, c ≤ 0x10FFFF := fun c mem => scalars c (mem_cons_of_mem _ mem)
    rw [encode, flatMap_cons, append_eq_append_iff] at bytes
    rcases bytes with ⟨between, first, second⟩ | ⟨between, rfl, second⟩
    · -- the byte is one of the first code point, which is then that byte
      cases between with
      | nil =>
        rw [append_nil] at first
        obtain ⟨-, after⟩ := @ih [] others second
        exact ⟨first ▸ wellFormed_encodeCodePoint scalar, after⟩
      | cons c between =>
        obtain ⟨rfl, tail⟩ := List.cons.inj second
        have small : cp < 0x80 := by
          by_contra high
          have inside : b ∈ encodeCodePoint cp := by simp [first]
          exact absurd low (Nat.not_lt.mpr (encodeCodePoint_high (Nat.le_of_not_lt high) scalar b inside))
        rw [encodeCodePoint_low small] at first
        obtain ⟨rfl, -, rfl⟩ : left = [] ∧ UInt8.ofNat cp = b ∧ between = [] := by
          cases left with
          | nil => simpa using first
          | cons c left => simp at first
        exact ⟨wellFormed_nil, rest, others, tail⟩
    · obtain ⟨before, after⟩ := ih others second.symm
      exact ⟨(wellFormed_encodeCodePoint scalar).append before, after⟩

end Goz.Wtf8

namespace Goz

open Wtf8 List

section Fold

variable [Externals] {run : List Char} {out : Bytes}

theorem wellFormed_composeInto (before : WellFormed out) : WellFormed (composeInto run out) := by
  unfold composeInto
  split
  · exact before
  · refine before.append ⟨(Externals.nfc run).map Char.toNat, ?_, rfl⟩
    intro cp mem
    obtain ⟨c, -, rfl⟩ := mem_map.mp mem
    have valid := c.valid
    rcases valid with low | ⟨-, high⟩
    · exact (Nat.le_of_lt low).trans (by decide)
    · exact Nat.le_of_lt_succ high

theorem wellFormed_foldCodePoints {cps : List CodePoint} (scalars : ∀ cp ∈ cps, cp ≤ 0x10FFFF)
    (before : WellFormed out) : WellFormed (foldCodePoints cps run out) := by
  induction cps generalizing run out with
  | nil => exact wellFormed_composeInto before
  | cons cp cps ih =>
    have later : ∀ c ∈ cps, c ≤ 0x10FFFF := fun c mem => scalars c (by simp [mem])
    rw [foldCodePoints]
    split
    · exact ih later before
    · exact ih later ((wellFormed_composeInto before).append (wellFormed_encodeCodePoint (scalars cp (by simp))))

theorem wellFormed_fold (bytes : Bytes) : WellFormed (fold bytes) := by
  unfold fold
  split
  case isTrue ascii =>
    apply wellFormed_ascii
    intro b mem
    obtain ⟨c, inside, rfl⟩ := mem_map.mp mem
    have small : c.toNat < 0x80 := by simpa [isAscii] using all_eq_true.mp ascii c inside
    unfold toAsciiLowercase
    split
    case isTrue upper =>
      rw [UInt8.toNat_add]
      have : (0x20 : UInt8).toNat = 32 := rfl
      omega
    case isFalse => exact small
  case isFalse => exact wellFormed_foldCodePoints (codePoints_le bytes) wellFormed_nil

@[simp] theorem fold_nil : fold [] = [] := rfl

/-- Folding takes a path apart at its separators, and no text folds away. -/
structure FoldJoins : Prop where
  splits : ∀ left right : Bytes, WellFormed left → WellFormed right →
    fold (left ++ 0x5C :: right) = fold left ++ 0x5C :: fold right
  keeps : ∀ text : Bytes, WellFormed text → fold text = [] → text = []

end Fold

variable {cps : List Nat}

def lowerCodePoint (cp : Nat) : Nat := if 0x41 ≤ cp ∧ cp ≤ 0x5A then cp + 0x20 else cp

theorem toNat_toLower (c : Char) : c.toLower.toNat = lowerCodePoint c.toNat := by
  unfold Char.toLower lowerCodePoint
  have low : ('A'.val).toNat = 0x41 := rfl
  have high : ('Z'.val).toNat = 0x5A := rfl
  have bounds : (c.val ≥ 'A'.val ∧ c.val ≤ 'Z'.val) ↔ (0x41 ≤ c.toNat ∧ c.toNat ≤ 0x5A) := Iff.rfl
  by_cases capital : c.val ≥ 'A'.val ∧ c.val ≤ 'Z'.val
  · rw [dif_pos capital, if_pos (bounds.mp capital)]
    have small := (bounds.mp capital).2
    show (c.val + 0x20).toNat = c.val.toNat + 0x20
    have small : c.val.toNat ≤ 0x5A := small
    rw [UInt32.toNat_add, show (0x20 : UInt32).toNat = 0x20 from rfl]
    omega
  · rw [dif_neg capital, if_neg (mt bounds.mpr capital)]

theorem fromU32_toNat {cp : CodePoint} {c : Char} (scalar : fromU32 cp = some c) : c.toNat = cp := by
  unfold fromU32 at scalar
  split at scalar
  case isTrue valid =>
    obtain rfl := Option.some.inj scalar
    rw [Char.ofNat, dif_pos valid]
    rfl
  case isFalse => cases scalar

theorem lowerCodePoint_of_not_scalar {cp : Nat} (lone : fromU32 cp = none) : lowerCodePoint cp = cp := by
  unfold fromU32 at lone
  split at lone
  case isTrue => cases lone
  case isFalse invalid =>
    apply if_neg
    rintro ⟨-, small⟩
    exact invalid (.inl (by omega))

theorem foldCodePoints_ascii (cps : List CodePoint) (run : List Char) (out : Bytes) :
    letI := Externals.ascii
    foldCodePoints cps run out = out ++ encode (run.map Char.toNat) ++ encode (cps.map lowerCodePoint) := by
  let _ := Externals.ascii
  have compose (run : List Char) (out : Bytes) : composeInto run out = out ++ encode (run.map Char.toNat) := by
    unfold composeInto
    split
    case isTrue empty => simp [isEmpty_iff.mp empty, encode]
    case isFalse => rfl
  induction cps generalizing run out with
  | nil => simp [foldCodePoints, compose, encode]
  | cons cp rest ih =>
    rw [foldCodePoints]
    cases scalar : fromU32 cp with
    | some c =>
      have lowered : ((Externals.decomposeCanonical c).map lowerChar).map Char.toNat = [lowerCodePoint cp] := by
        rw [← fromU32_toNat scalar, ← toNat_toLower]
        rfl
      dsimp only
      rw [ih, map_append, lowered, map_cons]
      simp [encode]
    | none =>
      dsimp only
      rw [ih, compose, map_cons, lowerCodePoint_of_not_scalar scalar]
      simp [encode]

theorem toAsciiLowercase_high {b : UInt8} (high : 0x80 ≤ b.toNat) : toAsciiLowercase b = b := if_neg (by omega)

theorem encodeCodePoint_lower {cp : Nat} (scalar : cp ≤ 0x10FFFF) :
    encodeCodePoint (lowerCodePoint cp) = (encodeCodePoint cp).map toAsciiLowercase := by
  unfold lowerCodePoint
  by_cases low : cp < 0x80
  · have byte : (UInt8.ofNat cp).toNat = cp := toNat_byte (by omega)
    rw [encodeCodePoint_low low, map_singleton, toAsciiLowercase, byte]
    by_cases capital : 0x41 ≤ cp ∧ cp ≤ 0x5A
    · rw [if_pos capital, if_pos capital, encodeCodePoint_low (by omega)]
      congr 1
      apply UInt8.toNat_inj.mp
      rw [UInt8.toNat_add, byte, toNat_byte (by omega), show (0x20 : UInt8).toNat = 0x20 from rfl]
      omega
    · rw [if_neg capital, if_neg capital, encodeCodePoint_low low]
  · rw [if_neg (by omega)]
    have same : ∀ b ∈ encodeCodePoint cp, toAsciiLowercase b = b := fun b inside =>
      toAsciiLowercase_high (encodeCodePoint_high (Nat.le_of_not_lt low) scalar b inside)
    rw [map_congr_left same, map_id']

theorem encode_lower (scalars : ∀ cp ∈ cps, cp ≤ 0x10FFFF) :
    encode (cps.map lowerCodePoint) = (encode cps).map toAsciiLowercase := by
  induction cps with
  | nil => rfl
  | cons cp rest ih =>
    have tail := ih fun c mem => scalars c (mem_cons_of_mem _ mem)
    rw [map_cons, encode, flatMap_cons, encodeCodePoint_lower (scalars cp mem_cons_self), encode, flatMap_cons,
      map_append]
    exact congrArg _ tail

theorem fold_ascii (scalars : ∀ cp ∈ cps, cp ≤ 0x10FFFF) :
    letI := Externals.ascii
    fold (encode cps) = encode (cps.map lowerCodePoint) := by
  let _ := Externals.ascii
  unfold fold
  split
  case isTrue => exact (encode_lower scalars).symm
  case isFalse =>
    rw [foldNonAscii, codePoints_encode scalars, foldCodePoints_ascii]
    simp [encode]

theorem foldJoins_ascii : @FoldJoins Externals.ascii := by
  let _ := Externals.ascii
  constructor
  · rintro left right ⟨cps, scalars, rfl⟩ ⟨cps', scalars', rfl⟩
    have whole : encode cps ++ 0x5C :: encode cps' = encode (cps ++ 0x5C :: cps') := by
      rw [encode_append]
      rfl
    have all : ∀ cp ∈ cps ++ 0x5C :: cps', cp ≤ 0x10FFFF := by
      simp only [mem_append, mem_cons]
      rintro cp (mem | rfl | mem)
      · exact scalars cp mem
      · decide
      · exact scalars' cp mem
    rw [whole, fold_ascii all, fold_ascii scalars, fold_ascii scalars', map_append, encode_append]
    rfl
  · rintro text ⟨cps, scalars, rfl⟩ gone
    rw [fold_ascii scalars] at gone
    cases cps with
    | nil => rfl
    | cons cp rest =>
      have some_ : encodeCodePoint (lowerCodePoint cp) ≠ [] := by
        unfold encodeCodePoint
        split_ifs <;> simp
      simp [encode, some_] at gone

end Goz
