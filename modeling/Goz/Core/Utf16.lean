import Goz.Core.Words

namespace Goz

open List

def join {α : Type} (separator : α) (path name : List α) : List α := (if path.isEmpty then [] else path ++ [separator]) ++ name

section Join

variable {α β : Type} {separator : α} {names : List (List α)} {path : List α} {f : α → List β} {a : α} {separator' : β}

theorem mem_join {name : List α} (mem : a ∈ join separator path name) : a ∈ path ∨ a = separator ∨ a ∈ name := by
  unfold join at mem
  split at mem
  · exact .inr (.inr mem)
  · simpa [or_assoc] using mem

theorem mem_foldl_join (mem : a ∈ names.foldl (join separator) path) : a ∈ path ∨ a = separator ∨ ∃ name ∈ names, a ∈ name := by
  induction names generalizing path with
  | nil => exact .inl mem
  | cons name rest ih =>
    rcases ih mem with before | same | ⟨other, later, inside⟩
    · rcases mem_join before with older | same | here
      · exact .inl older
      · exact .inr (.inl same)
      · exact .inr (.inr ⟨name, mem_cons_self .., here⟩)
    · exact .inr (.inl same)
    · exact .inr (.inr ⟨other, mem_cons_of_mem _ later, inside⟩)

theorem mem_foldl_join_of_mem (mem : a ∈ path ∨ ∃ name ∈ names, a ∈ name) : a ∈ names.foldl (join separator) path := by
  induction names generalizing path with
  | nil => simpa using mem
  | cons name rest ih =>
    apply ih
    rcases mem with before | ⟨other, there, inside⟩
    · have some_ : path ≠ [] := ne_nil_of_mem before
      simp [join, some_, before]
    · rcases mem_cons.mp there with rfl | later
      · simp [join, inside]
      · exact .inr ⟨other, later, inside⟩

theorem flatMap_join (some_ : ∀ a, f a ≠ []) (same : f separator = [separator']) (name : List α) :
    (join separator path name).flatMap f = join separator' (path.flatMap f) (name.flatMap f) := by
  cases path with
  | nil => rfl
  | cons a path => simp [join, same, some_]

theorem flatMap_foldl_join (some_ : ∀ a, f a ≠ []) (same : f separator = [separator']) :
    (names.foldl (join separator) path).flatMap f = (names.map (·.flatMap f)).foldl (join separator') (path.flatMap f) := by
  induction names generalizing path with
  | nil => rfl
  | cons name rest ih => rw [foldl_cons, ih, flatMap_join some_ same, map_cons, foldl_cons]

end Join

namespace Wtf8

variable {u lo : UInt16}

def codeUnits (cp : Nat) : List UInt16 :=
  if cp < 0x10000 then [UInt16.ofNat cp]
  else [UInt16.ofNat (0xD800 + (cp - 0x10000) / 1024), UInt16.ofNat (0xDC00 + (cp - 0x10000) % 1024)]

def toUtf16 (bytes : Bytes) : List UInt16 := (codePoints bytes).flatMap codeUnits

def isSurrogate (cp : Nat) : Bool := 0xD800 ≤ cp && cp < 0xE000

theorem codeUnits_ne_nil (cp : Nat) : codeUnits cp ≠ [] := by
  unfold codeUnits
  split <;> simp

theorem codeUnits_unit (u : UInt16) : codeUnits u.toNat = [u] := by
  have bound := u.toNat_lt
  rw [codeUnits, if_pos (by omega), UInt16.ofNat_toNat]

theorem codeUnits_pair (high : isHighSurrogate u = true) (low : isLowSurrogate lo = true) :
    codeUnits (0x10000 + ((u.toNat - 0xD800) * 1024 + (lo.toNat - 0xDC00))) = [u, lo] := by
  simp only [isHighSurrogate, isLowSurrogate, Bool.and_eq_true, decide_eq_true_eq] at high low
  have first : 0xD800 + (0x10000 + ((u.toNat - 0xD800) * 1024 + (lo.toNat - 0xDC00)) - 0x10000) / 1024 = u.toNat := by omega
  have second : 0xDC00 + (0x10000 + ((u.toNat - 0xD800) * 1024 + (lo.toNat - 0xDC00)) - 0x10000) % 1024 = lo.toNat := by omega
  have large : ¬ 0x10000 + ((u.toNat - 0xD800) * 1024 + (lo.toNat - 0xDC00)) < 0x10000 := by omega
  rw [codeUnits, if_neg large, first, second, UInt16.ofNat_toNat, UInt16.ofNat_toNat]

theorem flatMap_codeUnits (units : List UInt16) : (utf16CodePoints units).1.flatMap codeUnits = units := by
  fun_induction utf16CodePoints units with
  | case1 => rfl
  | case2 u => simp [codeUnits_unit]
  | case3 u lo rest pair following ih =>
    obtain ⟨high, low⟩ := Bool.and_eq_true_iff.mp pair
    rw [flatMap_cons, codeUnits_pair high low, ih]
    rfl
  | case4 u lo rest pair following ih =>
    rw [flatMap_cons, codeUnits_unit, ih]
    rfl

theorem isSurrogate_unit (u : UInt16) : isSurrogate u.toNat = (isHighSurrogate u || isLowSurrogate u) := by
  rw [Bool.eq_iff_iff]
  simp only [isSurrogate, isHighSurrogate, isLowSurrogate, Bool.and_eq_true, Bool.or_eq_true, decide_eq_true_eq]
  omega

theorem utf16CodePoints_lossy (units : List UInt16) : (utf16CodePoints units).2 = (utf16CodePoints units).1.any isSurrogate := by
  fun_induction utf16CodePoints units with
  | case1 => rfl
  | case2 u => simp [isSurrogate_unit]
  | case3 u lo rest pair following ih =>
    have plain : isSurrogate (0x10000 + ((u.toNat - 0xD800) * 1024 + (lo.toNat - 0xDC00))) = false := by
      simp only [isSurrogate, Bool.and_eq_false_iff, decide_eq_false_iff_not]
      omega
    rw [any_cons, plain, Bool.false_or, ih]
  | case4 u lo rest pair following ih => rw [any_cons, isSurrogate_unit, ih]

def Unpaired (units : List UInt16) : Prop :=
  ∃ before u after, units = before ++ u :: after ∧
    (isHighSurrogate u = true ∧ after.head?.all (!isLowSurrogate ·) = true ∨
      isLowSurrogate u = true ∧ before.getLast?.all (!isHighSurrogate ·) = true)

theorem high_not_low (high : isHighSurrogate u = true) : isLowSurrogate u = false := by
  simp only [isHighSurrogate, isLowSurrogate, Bool.and_eq_true, Bool.and_eq_false_iff, decide_eq_true_eq, decide_eq_false_iff_not] at high ⊢
  omega

theorem low_not_high (low : isLowSurrogate u = true) : isHighSurrogate u = false := by
  by_contra high
  rw [high_not_low (by simpa using high)] at low
  cases low

theorem getLast?_pair_all (u lo : UInt16) (before : List UInt16) (low : isLowSurrogate lo = true) :
    (u :: lo :: before).getLast?.all (!isHighSurrogate ·) = before.getLast?.all (!isHighSurrogate ·) := by
  cases before with
  | nil => simp [low_not_high low]
  | cons b before => rw [getLast?_cons_cons, getLast?_cons_cons]

theorem unpaired_pair (high : isHighSurrogate u = true) (low : isLowSurrogate lo = true) (rest : List UInt16) :
    Unpaired (u :: lo :: rest) ↔ Unpaired rest := by
  constructor
  · rintro ⟨before, x, after, same, lone⟩
    rcases before with _ | ⟨b, _ | ⟨c, before⟩⟩
    · obtain ⟨rfl, rfl⟩ := cons.inj same
      simp [low, high_not_low high] at lone
    · simp only [cons_append, nil_append, cons.injEq] at same
      obtain ⟨rfl, rfl, rfl⟩ := same
      simp [high, low_not_high low] at lone
    · simp only [cons_append, cons.injEq] at same
      obtain ⟨rfl, rfl, rfl⟩ := same
      rw [getLast?_pair_all _ _ _ low] at lone
      exact ⟨before, x, after, rfl, lone⟩
  · rintro ⟨before, x, after, rfl, lone⟩
    refine ⟨u :: lo :: before, x, after, rfl, ?_⟩
    rwa [getLast?_pair_all _ _ _ low]

theorem unpaired_cons {rest : List UInt16} (apart : ¬ (isHighSurrogate u = true ∧ rest.head?.any isLowSurrogate = true)) :
    Unpaired (u :: rest) ↔ isHighSurrogate u = true ∨ isLowSurrogate u = true ∨ Unpaired rest := by
  constructor
  · rintro ⟨before, x, after, same, lone⟩
    rcases before with _ | ⟨b, before⟩
    · obtain ⟨rfl, rfl⟩ := cons.inj same
      rcases lone with ⟨high, -⟩ | ⟨low, -⟩
      · exact .inl high
      · exact .inr (.inl low)
    · obtain ⟨rfl, rfl⟩ := cons.inj same
      refine .inr (.inr ⟨before, x, after, rfl, lone.imp_right fun ⟨low, last⟩ => ⟨low, ?_⟩⟩)
      cases before with
      | nil => rfl
      | cons c before => rwa [getLast?_cons_cons] at last
  · rintro (high | low | ⟨before, x, after, rfl, lone⟩)
    · refine ⟨[], u, rest, rfl, .inl ⟨high, ?_⟩⟩
      cases rest with
      | nil => rfl
      | cons b rest => simpa [high] using apart
    · exact ⟨[], u, rest, rfl, .inr ⟨low, rfl⟩⟩
    · refine ⟨u :: before, x, after, rfl, lone.imp_right fun ⟨low, last⟩ => ⟨low, ?_⟩⟩
      cases before with
      | nil => simpa [low] using apart
      | cons c before => rwa [getLast?_cons_cons]

theorem utf16CodePoints_marks (units : List UInt16) : (utf16CodePoints units).2 = true ↔ Unpaired units := by
  fun_induction utf16CodePoints units with
  | case1 =>
    constructor
    · intro impossible
      cases impossible
    · rintro ⟨before, u, after, same, -⟩
      simp at same
  | case2 u =>
    have nothing : ¬ Unpaired [] := by
      rintro ⟨before, u, after, same, -⟩
      simp at same
    rw [unpaired_cons (by simp)]
    simp [nothing]
  | case3 u lo rest pair following ih =>
    obtain ⟨high, low⟩ := Bool.and_eq_true_iff.mp pair
    rw [unpaired_pair high low, ← ih]
  | case4 u lo rest pair following ih =>
    rw [unpaired_cons (by simpa using pair), ← ih]
    simp [or_assoc, following]

instance (units : List UInt16) : Decidable (Unpaired units) := decidable_of_iff _ (utf16CodePoints_marks units)

variable {cps : List CodePoint}

/-- `str::from_utf8`: bytes are UTF-8 if they are the bytes of the characters they stand for. -/
def fromUtf8 (bytes : Bytes) : Option (List Char) :=
  let chars := (codePoints bytes).filterMap fromU32
  if encodeChars chars = bytes then some chars else none

def toStringLossy (bytes : Bytes) : String :=
  match fromUtf8 bytes with
  | some chars => String.ofList chars
  | none => String.ofList ((codePoints bytes).map fun cp => (fromU32 cp).getD (Char.ofNat 0xFFFD))

theorem toNat_le (c : Char) : c.toNat ≤ 0x10FFFF := by
  rcases c.valid with low | ⟨-, high⟩
  · exact (Nat.le_of_lt low).trans (by decide)
  · exact Nat.le_of_lt_succ high

theorem isSurrogate_toNat (c : Char) : isSurrogate c.toNat = false := by
  rcases c.valid with low | ⟨high, -⟩
  · simp only [isSurrogate, Bool.and_eq_false_iff, decide_eq_false_iff_not]
    exact .inl (Nat.not_le_of_lt low)
  · simp only [isSurrogate, Bool.and_eq_false_iff, decide_eq_false_iff_not]
    exact .inr (Nat.not_lt_of_le high)

theorem fromU32_eq_some {cp : Nat} (scalar : cp ≤ 0x10FFFF) (plain : isSurrogate cp = false) : ∃ c : Char, fromU32 cp = some c ∧ c.toNat = cp := by
  have valid : Nat.isValidChar cp := by
    simp only [isSurrogate, Bool.and_eq_false_iff, decide_eq_false_iff_not] at plain
    unfold Nat.isValidChar
    omega
  refine ⟨Char.ofNat cp, if_pos valid, ?_⟩
  rw [Char.ofNat, dif_pos valid]
  rfl

theorem map_toNat_filterMap (scalars : ∀ cp ∈ cps, cp ≤ 0x10FFFF) (plain : cps.any isSurrogate = false) :
    (cps.filterMap fromU32).map Char.toNat = cps := by
  induction cps with
  | nil => rfl
  | cons cp cps ih =>
    rw [any_cons, Bool.or_eq_false_iff] at plain
    obtain ⟨c, found, same⟩ := fromU32_eq_some (scalars cp (mem_cons_self ..)) plain.1
    rw [filterMap_cons_some found, map_cons, same, ih (fun cp mem => scalars cp (mem_cons_of_mem _ mem)) plain.2]

theorem fromUtf8_encode (scalars : ∀ cp ∈ cps, cp ≤ 0x10FFFF) :
    fromUtf8 (encode cps) = if cps.any isSurrogate then none else some (cps.filterMap fromU32) := by
  have unfolded : fromUtf8 (encode cps) =
      if encode ((cps.filterMap fromU32).map Char.toNat) = encode cps then some (cps.filterMap fromU32) else none := by
    rw [fromUtf8, codePoints_encode scalars]
    rfl
  rw [unfolded]
  cases plain : cps.any isSurrogate with
  | false => rw [map_toNat_filterMap scalars plain, if_pos rfl, if_neg Bool.false_ne_true]
  | true =>
    rw [if_pos rfl, if_neg]
    intro same
    have chars : ∀ cp ∈ (cps.filterMap fromU32).map Char.toNat, cp ≤ 0x10FFFF := by
      intro cp mem
      obtain ⟨c, -, rfl⟩ := mem_map.mp mem
      exact toNat_le c
    have back : (cps.filterMap fromU32).map Char.toNat = cps := by
      rw [← codePoints_encode chars, same, codePoints_encode scalars]
    obtain ⟨cp, mem, surrogate⟩ := any_eq_true.mp plain
    rw [← back] at mem
    obtain ⟨c, -, rfl⟩ := mem_map.mp mem
    rw [isSurrogate_toNat] at surrogate
    cases surrogate

end Wtf8

end Goz
