import Goz.Library.Loop

namespace Goz.Output

structure DigitGrouping where
  separator : List Char
  groups : Nat

def esDefault : DigitGrouping := ⟨[','], 3⟩

def u32Max : Nat := 2 ^ 32 - 1

/-- The digits up to the first `0` as one number, saturated as `u32`. -/
def readGroups (value : Nat) : List Char → Nat
  | [] => value
  | c :: rest =>
    if c = '0' then value
    else if '1' ≤ c ∧ c ≤ '9' then readGroups (min (min (value * 10) u32Max + (c.toNat - 48)) u32Max) rest
    else readGroups value rest

def esGroups (grouping : List Char) : Nat :=
  if readGroups 0 grouping < 100 then readGroups 0 grouping else 3

def fromLocale (thousandSeparator grouping : Option (List Char)) : DigitGrouping :=
  ⟨thousandSeparator.getD esDefault.separator, (grouping.map esGroups).getD esDefault.groups⟩

/-- The size of the first group from the right, and of those after it. -/
def DigitGrouping.sizes (grouping : DigitGrouping) : Nat × Nat :=
  if grouping.groups ≤ 9 then (grouping.groups, grouping.groups) else (grouping.groups / 10, grouping.groups % 10)

/-- The loop that finds where a separator goes, counted from the left. -/
def cutTurn (len rest : Nat) (s : List Nat × Nat) : (List Nat × Nat) ⊕ List Nat :=
  if s.2 < len then .inl (s.1 ++ [len - s.2], s.2 + rest) else .inr s.1

/-- The digits from `start` on, with the separator at each cut. -/
def written (separator digits : List Char) (start : Nat) : List Nat → List Char
  | [] => digits.drop start
  | cut :: cuts => (digits.take cut).drop start ++ separator ++ written separator digits cut cuts

/-- `none`: the fuel ran out in the loop. -/
def DigitGrouping.format (grouping : DigitGrouping) (n : UInt64) (fuel : Nat) : Option (List Char) :=
  let digits := Nat.toDigits 10 n.toNat
  if grouping.groups = 0 then some digits
  else
    (Loop.loop (cutTurn digits.length grouping.sizes.2) fuel ([], grouping.sizes.1)).map fun cuts =>
      written grouping.separator digits 0 cuts.reverse

/-- The last digit read is no zero, not even of the value that a long text saturates to. -/
theorem readGroups_mod {value : Nat} (before : value = 0 ∨ value % 10 ≠ 0) (grouping : List Char) :
    readGroups value grouping = 0 ∨ readGroups value grouping % 10 ≠ 0 := by
  induction grouping generalizing value with
  | nil => exact before
  | cons c rest ih =>
    simp only [readGroups]
    split
    · exact before
    · split
      · rename_i digit
        have low : 49 ≤ c.toNat := digit.1
        have high : c.toNat ≤ 57 := digit.2
        apply ih
        simp only [u32Max]
        omega
      · exact ih before

theorem sizes_pos (thousandSeparator grouping : Option (List Char)) (groups : (fromLocale thousandSeparator grouping).groups ≠ 0) :
    0 < (fromLocale thousandSeparator grouping).sizes.1 ∧ 0 < (fromLocale thousandSeparator grouping).sizes.2 := by
  have small : (fromLocale thousandSeparator grouping).groups = 0 ∨ (fromLocale thousandSeparator grouping).groups < 100 ∧
      (fromLocale thousandSeparator grouping).groups % 10 ≠ 0 := by
    cases grouping with
    | none => exact .inr (by simp [fromLocale, esDefault])
    | some text =>
      have last := readGroups_mod (.inl rfl) text
      simp only [fromLocale, Option.map_some, Option.getD_some, esGroups]
      split <;> omega
  unfold DigitGrouping.sizes
  split <;> simp only <;> omega

variable {separator digits head : List Char} {tail : List (List Char)} {cuts : List Nat} {first rest : Nat}

/-- What stands between the separators. -/
def pieces (digits : List Char) (start : Nat) : List Nat → List (List Char)
  | [] => [digits.drop start]
  | cut :: cuts => (digits.take cut).drop start :: pieces digits cut cuts

theorem written_eq (start : Nat) : written separator digits start cuts = separator.intercalate (pieces digits start cuts) := by
  induction cuts generalizing start with
  | nil => simp [written, pieces]
  | cons cut cuts ih =>
    rw [written, pieces, ih]
    cases cuts <;> simp [pieces, List.intercalate, List.intersperse]

theorem pieces_cut (split : pieces digits 0 cuts = head :: tail) {cut : Nat} (inside : cut ≤ head.length) :
    pieces digits 0 (cut :: cuts) = head.take cut :: head.drop cut :: tail := by
  cases cuts with
  | nil =>
    cases split
    simp [pieces]
  | cons next cuts =>
    cases split
    simp only [List.drop_zero, List.length_take] at inside
    simp [pieces, List.take_take, min_eq_left (show cut ≤ next by omega)]

/-- The size of the group that comes after `n` groups. -/
def groupSize (first rest n : Nat) : Nat := if n = 0 then first else rest

def groupSizes (first rest : Nat) : Nat → List Nat
  | 0 => []
  | n + 1 => groupSize first rest n :: groupSizes first rest n

theorem groupSizes_succ (n : Nat) : groupSizes first rest (n + 1) = List.replicate n rest ++ [first] := by
  induction n with
  | zero => rfl
  | succ n ih =>
    rw [groupSizes, ih]
    rfl

/-- After `n` turns: the leftmost piece, still uncut, and `n` groups right of it. -/
structure Cutting (digits : List Char) (first rest : Nat) (s : List Nat × Nat) (n : Nat) (head : List Char)
    (tail : List (List Char)) : Prop where
  cut : pieces digits 0 s.1.reverse = head :: tail
  whole : head ++ tail.flatten = digits
  some : head ≠ []
  sizes : tail.map List.length = groupSizes first rest n
  next : s.2 = (groupSizes first rest (n + 1)).sum

theorem Cutting.left {s : List Nat × Nat} {n : Nat} (cutting : Cutting digits first rest s n head tail) :
    head.length + s.2 = digits.length + groupSize first rest n := by
  rw [← cutting.whole, List.length_append, List.length_flatten, cutting.sizes, cutting.next, groupSizes, List.sum_cons]
  omega

theorem Cutting.turn {s again : List Nat × Nat} {n : Nat} (cutting : Cutting digits first rest s n head tail)
    (pos : 0 < first ∧ 0 < rest) (goes : cutTurn digits.length rest s = .inl again) :
    ∃ head tail, Cutting digits first rest again (n + 1) head tail := by
  unfold cutTurn at goes
  split at goes
  · rename_i more
    cases goes
    have left := cutting.left
    have size : 0 < groupSize first rest n := by
      unfold groupSize
      split <;> omega
    refine ⟨head.take (digits.length - s.2), head.drop (digits.length - s.2) :: tail, ?_, ?_, ?_, ?_, ?_⟩
    · rw [List.reverse_append]
      exact pieces_cut cutting.cut (by omega)
    · rw [List.flatten_cons, ← List.append_assoc, List.take_append_drop, cutting.whole]
    · apply List.ne_nil_of_length_pos
      rw [List.length_take]
      omega
    · rw [List.map_cons, cutting.sizes, List.length_drop, show head.length - (digits.length - s.2) = groupSize first rest n by omega]
      rfl
    · rw [groupSizes, List.sum_cons, ← cutting.next, groupSize, if_neg n.succ_ne_zero, add_comm]
  · cases goes

/-- Groups laid out from the right: the rightmost of several has the first size, those between it and the
    leftmost the other, and the leftmost may be shorter than its own. -/
def Grouped (first rest : Nat) (pieces : List (List Char)) : Prop :=
  ∃ leftmost others, pieces = leftmost :: others ∧ leftmost ≠ [] ∧
    (others = [] ∧ leftmost.length ≤ first ∨
      leftmost.length ≤ rest ∧ ∃ n, others.map List.length = List.replicate n rest ++ [first])

theorem Cutting.returned {s : List Nat × Nat} {n : Nat} (cutting : Cutting digits first rest s n head tail)
    (goes : cutTurn digits.length rest s = .inr cuts) :
    (pieces digits 0 cuts.reverse).flatten = digits ∧ Grouped first rest (pieces digits 0 cuts.reverse) := by
  unfold cutTurn at goes
  split at goes
  · cases goes
  · cases goes
    have left := cutting.left
    have sizes := cutting.sizes
    refine ⟨by rw [cutting.cut, List.flatten_cons, cutting.whole], head, tail, cutting.cut, cutting.some, ?_⟩
    cases n with
    | zero =>
      rw [groupSize, if_pos rfl] at left
      exact .inl ⟨List.map_eq_nil_iff.mp sizes, by omega⟩
    | succ n =>
      rw [groupSize, if_neg n.succ_ne_zero] at left
      exact .inr ⟨by omega, n, sizes.trans (groupSizes_succ n)⟩

theorem format_groups (thousandSeparator grouping : Option (List Char)) (n : UInt64) :
    ∃ pieces, (∀ fuel, (Nat.toDigits 10 n.toNat).length < fuel → (fromLocale thousandSeparator grouping).format n fuel =
        some ((fromLocale thousandSeparator grouping).separator.intercalate pieces)) ∧
      pieces.flatten = Nat.toDigits 10 n.toNat ∧
      ((fromLocale thousandSeparator grouping).groups ≠ 0 →
        Grouped (fromLocale thousandSeparator grouping).sizes.1 (fromLocale thousandSeparator grouping).sizes.2 pieces) := by
  have sizes := sizes_pos thousandSeparator grouping
  generalize fromLocale thousandSeparator grouping = g at sizes ⊢
  by_cases plain : g.groups = 0
  · refine ⟨[Nat.toDigits 10 n.toNat], fun fuel _ => ?_, by simp, fun groups => absurd plain groups⟩
    simp [DigitGrouping.format, plain, List.intercalate]
  · have pos := sizes plain
    obtain ⟨digits, isDigits⟩ : ∃ digits, Nat.toDigits 10 n.toNat = digits := ⟨_, rfl⟩
    obtain ⟨cuts, enough⟩ : ∃ cuts, ∀ fuel, digits.length - g.sizes.1 < fuel →
        Loop.loop (cutTurn digits.length g.sizes.2) fuel ([], g.sizes.1) = some cuts := by
      refine Loop.ends (s := ([], g.sizes.1)) (fun _ => True) (fun s => digits.length - s.2) ?_ trivial
      intro s again _ goes
      unfold cutTurn at goes
      split at goes <;> cases goes
      exact ⟨trivial, by simp only; omega⟩
    obtain ⟨whole, grouped⟩ := Loop.correct (fun s => ∃ n head tail, Cutting digits g.sizes.1 g.sizes.2 s n head tail)
      (fun s again ⟨n, _, _, cutting⟩ goes => ⟨n + 1, cutting.turn pos goes⟩)
      (fun s result ⟨_, _, _, cutting⟩ goes => cutting.returned goes)
      ⟨0, digits, [], rfl, by simp, isDigits ▸ Nat.toDigits_ne_nil, rfl, rfl⟩ (enough _ (Nat.lt_succ_self _))
    refine ⟨pieces digits 0 cuts.reverse, fun fuel many => ?_, whole.trans isDigits.symm, fun _ => grouped⟩
    rw [isDigits] at many
    simp only [DigitGrouping.format, isDigits, plain, if_false, enough fuel (by omega), Option.map_some, written_eq]

theorem format_groups_hindi :
    (fromLocale none (some ['3', ';', '2', ';', '0'])).format 1234567 10 = some ['1', '2', ',', '3', '4', ',', '5', '6', '7'] ∧
      ∃ pieces, pieces.flatten = Nat.toDigits 10 1234567 ∧ Grouped 3 2 pieces := by
  obtain ⟨pieces, -, whole, grouped⟩ := format_groups none (some ['3', ';', '2', ';', '0']) 1234567
  exact ⟨by decide, pieces, whole, grouped (by decide)⟩

end Goz.Output
