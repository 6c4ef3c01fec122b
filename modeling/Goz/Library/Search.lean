import Mathlib.Data.List.Basic
import Mathlib.Data.List.Infix
import Mathlib.Tactic

namespace Search

open List Option

variable {α : Type*} {needle left right : List α} {sep : α} {p : α → Bool} {hay : List α}

section Find

variable [DecidableEq α]

def find (needle : List α) : List α → Option Nat
  | [] => if needle.isEmpty then some 0 else none
  | x :: rest => if needle.isPrefixOf (x :: rest) then some 0 else (find needle rest).map (· + 1)

theorem find_spec (needle hay : List α) :
    match find needle hay with
    | none => ¬ needle <:+: hay
    | some pos => needle <+: hay.drop pos ∧ ∀ q < pos, ¬ needle <+: hay.drop q := by
  induction hay with
  | nil =>
    unfold find
    split
    case h_1 absent =>
      split at absent
      · cases absent
      case isFalse some_ => simpa [infix_nil] using some_
    case h_2 pos found =>
      split at found
      case isTrue empty =>
        obtain rfl := some.inj found
        exact ⟨by simp [isEmpty_iff.mp empty], by simp⟩
      case isFalse => cases found
  | cons x rest ih =>
    unfold find
    by_cases here : needle.isPrefixOf (x :: rest)
    · rw [if_pos here]
      exact ⟨List.isPrefixOf_iff_prefix.mp here, by simp⟩
    · rw [if_neg here]
      rw [List.isPrefixOf_iff_prefix] at here
      cases later : find needle rest with
      | none =>
        rw [later] at ih
        simp only [map_none, infix_cons_iff, here, false_or]
        exact ih
      | some pos =>
        rw [later] at ih
        simp only [map_some, drop_succ_cons]
        refine ⟨ih.1, fun q below => ?_⟩
        cases q with
        | zero => exact here
        | succ q => exact ih.2 q (by omega)

theorem find_eq_none_iff : find needle hay = none ↔ ¬ needle <:+: hay := by
  have spec := find_spec needle hay
  cases found : find needle hay with
  | none =>
    rw [found] at spec
    simpa using spec
  | some pos =>
    rw [found] at spec
    simpa using spec.1.isInfix.trans (drop_suffix pos hay).isInfix

theorem find_isSome_iff : (find needle hay).isSome ↔ needle <:+: hay := by
  rw [isSome_iff_ne_none, Ne, find_eq_none_iff, not_not]

end Find

section Separated

theorem infix_append_cons_iff (apart : sep ∉ needle) :
    needle <:+: left ++ sep :: right ↔ needle <:+: left ∨ needle <:+: right := by
  constructor
  · rintro ⟨before, after, eq⟩
    rw [append_assoc, append_eq_append_iff] at eq
    rcases eq with ⟨mid, rfl, eq⟩ | ⟨mid, rfl, eq⟩
    · rw [append_eq_append_iff] at eq
      rcases eq with ⟨tail, rfl, -⟩ | ⟨tail, rfl, eq⟩
      · exact .inl ⟨before, tail, by simp⟩
      · cases tail with
        | nil => exact .inl ⟨before, [], by simp⟩
        | cons y tail =>
          obtain ⟨rfl, -⟩ := cons.inj eq
          simp at apart
    · cases mid with
      | nil =>
        cases needle with
        | nil => exact .inl nil_infix
        | cons y needle =>
          obtain ⟨rfl, -⟩ := cons.inj eq
          simp at apart
      | cons y mid =>
        obtain ⟨-, rfl⟩ := cons.inj eq
        exact .inr ⟨mid, after, by simp⟩
  · rintro (inside | inside)
    · exact inside.trans (prefix_append _ _).isInfix
    · exact inside.trans ⟨left ++ [sep], [], by simp⟩

theorem prefix_append_cons_iff (apart : sep ∉ needle) : needle <+: left ++ sep :: right ↔ needle <+: left := by
  constructor
  · rintro ⟨after, eq⟩
    rw [append_eq_append_iff] at eq
    rcases eq with ⟨mid, rfl, -⟩ | ⟨mid, rfl, eq⟩
    · exact prefix_append needle mid
    · cases mid with
      | nil => simp
      | cons y mid =>
        obtain ⟨rfl, -⟩ := cons.inj eq
        simp at apart
  · intro inside
    exact inside.trans (prefix_append _ _)

variable [DecidableEq α]

theorem find_append_cons (apart : sep ∉ needle) (nonempty : needle ≠ []) :
    find needle (left ++ sep :: right) = (find needle left).or ((find needle right).map (· + (left.length + 1))) := by
  induction left with
  | nil =>
    have other : ¬ needle.isPrefixOf (sep :: right) = true := by
      intro here
      obtain ⟨after, eq⟩ := isPrefixOf_iff_prefix.mp here
      cases needle with
      | nil => exact nonempty rfl
      | cons y needle =>
        obtain ⟨rfl, -⟩ := cons.inj eq
        simp at apart
    simp [find, other, nonempty]
  | cons x left ih =>
    have same : needle.isPrefixOf (x :: (left ++ sep :: right)) = needle.isPrefixOf (x :: left) := by
      rw [Bool.eq_iff_iff, isPrefixOf_iff_prefix, isPrefixOf_iff_prefix, ← cons_append,
        prefix_append_cons_iff apart]
    rw [cons_append, find, same, ih, find]
    split
    · rfl
    · cases find needle left with
      | some pos => rfl
      | none =>
        rw [Option.none_or, Option.map_none, Option.none_or, Option.map_map]
        rfl

theorem find_le {pos : Nat} (found : find needle hay = some pos) : pos + needle.length ≤ hay.length := by
  have spec := find_spec needle hay
  rw [found] at spec
  have fits := spec.1.length_le
  rw [length_drop] at fits
  by_cases inside : pos ≤ hay.length
  · omega
  · -- past the end only the empty text is found, and it is found at the start already
    have empty : needle = [] := eq_nil_of_length_eq_zero (by omega)
    exact absurd (by simp [empty]) (spec.2 0 (by omega))

end Separated

section Last

def findLast (p : α → Bool) (list : List α) : Option Nat := (list.reverse.findIdx? p).map fun i => list.length - 1 - i

theorem findLast_none {list : List α} (none_ : findLast p list = none) : ∀ x ∈ list, p x = false := by
  rw [findLast, map_eq_none_iff, List.findIdx?_eq_none_iff] at none_
  intro x mem
  exact none_ x (mem_reverse.mpr mem)

theorem findLast_some {list : List α} {at_ : Nat} (found : findLast p list = some at_) :
    (∃ x, p x = true ∧ list = list.take at_ ++ x :: list.drop (at_ + 1) ∧ list.take (at_ + 1) = list.take at_ ++ [x]) ∧
      ∀ y ∈ list.drop (at_ + 1), p y = false := by
  obtain ⟨i, first, rfl⟩ := map_eq_some_iff.mp found
  obtain ⟨inside, holds, before⟩ := List.findIdx?_eq_some_iff_getElem.mp first
  rw [length_reverse] at inside
  rw [getElem_reverse] at holds
  refine ⟨⟨list[list.length - 1 - i], holds, ?_, ?_⟩, fun y mem => ?_⟩
  · rw [getElem_cons_drop, take_append_drop]
  · rw [take_concat_get' list (list.length - 1 - i) (by omega)]
  · obtain ⟨j, lt, rfl⟩ := getElem_of_mem mem
    rw [length_drop] at lt
    rw [getElem_drop]
    have behind := before (i - 1 - j) (by omega)
    rw [getElem_reverse] at behind
    have same : list.length - 1 - (i - 1 - j) = list.length - 1 - i + 1 + j := by omega
    simp only [same] at behind
    simpa using behind

variable {head tail : List α}

/-- A text that reaches past a separator it is searched around has its own last separator there. -/
theorem infix_across_iff (last : sep ∉ tail) (apart : sep ∉ right) :
    head ++ sep :: tail <:+: left ++ sep :: right ↔
      head ++ sep :: tail <:+: left ++ [sep] ∨ (head ++ [sep] <:+ left ++ [sep] ∧ tail <+: right) := by
  constructor
  · rintro ⟨before, after, eq⟩
    have eq : (before ++ (head ++ [sep])) ++ (tail ++ after) = (left ++ [sep]) ++ right := by simpa using eq
    rw [append_eq_append_iff] at eq
    rcases eq with ⟨mid, whole, rest⟩ | ⟨mid, whole, rest⟩
    · rw [append_eq_append_iff] at rest
      rcases rest with ⟨over_, rfl, -⟩ | ⟨over_, rfl, rfl⟩
      · exact .inl ⟨before, over_, by simp [whole]⟩
      · rcases eq_nil_or_concat mid with rfl | ⟨mid, x, rfl⟩
        · exact .inr ⟨⟨before, by simpa using whole.symm⟩, by simp⟩
        · -- the text before the name ends in the separator, and no part of it after the needle's last one does
          have ends := congrArg List.getLast? whole
          simp only [concat_eq_append, ← append_assoc, getLast?_concat, Option.some.injEq] at ends
          simp [ends] at last
    · rcases eq_nil_or_concat mid with rfl | ⟨mid, x, rfl⟩
      · exact .inr ⟨⟨before, by simpa using whole⟩, ⟨after, by simpa using rest.symm⟩⟩
      · have ends := congrArg List.getLast? whole
        simp only [concat_eq_append, ← append_assoc, getLast?_concat, Option.some.injEq] at ends
        simp [rest, ends] at apart
  · rintro (inside | ⟨⟨before, ends⟩, after, rfl⟩)
    · exact inside.trans ⟨[], right, by simp⟩
    · refine ⟨before, after, ?_⟩
      have ends : before ++ (head ++ [sep]) ++ (tail ++ after) = left ++ [sep] ++ (tail ++ after) := by rw [ends]
      simpa using ends

end Last

/-- The pieces a list is split into hold no separator. The first is where the list starts, and each lies in the list. -/
theorem splitOnP_pieces (list : List α) : ∃ first rest, list.splitOnP p = first :: rest ∧ first <+: list ∧
    (∀ piece ∈ first :: rest, piece <:+: list) ∧ ∀ piece ∈ first :: rest, ∀ x ∈ piece, p x = false := by
  induction list with
  | nil => exact ⟨[], [], splitOnP_nil, prefix_rfl, by simp, by simp⟩
  | cons x list ih =>
    obtain ⟨first, rest, split, start, inside, plain⟩ := ih
    rw [splitOnP_cons_eq_if_modifyHead, split]
    have wider : ∀ piece ∈ first :: rest, piece <:+: x :: list := fun piece mem =>
      (inside piece mem).trans (suffix_cons x list).isInfix
    cases sep : p x with
    | true =>
      refine ⟨[], first :: rest, by simp, nil_prefix, ?_, ?_⟩
      · intro piece mem
        rcases mem_cons.mp mem with rfl | mem
        · exact nil_prefix.isInfix
        · exact wider piece mem
      · intro piece mem
        rcases mem_cons.mp mem with rfl | mem
        · simp
        · exact plain piece mem
    | false =>
      have longer : x :: first <+: x :: list := cons_prefix_cons.mpr ⟨rfl, start⟩
      refine ⟨x :: first, rest, by simp, longer, ?_, ?_⟩
      · intro piece mem
        rcases mem_cons.mp mem with rfl | mem
        · exact longer.isInfix
        · exact wider piece (mem_cons_of_mem _ mem)
      · intro piece mem
        rcases mem_cons.mp mem with rfl | mem
        · intro y inside
          rcases mem_cons.mp inside with rfl | inside
          · exact sep
          · exact plain first mem_cons_self y inside
        · exact plain piece (mem_cons_of_mem _ mem)

theorem infix_of_mem_splitOnP {list piece : List α} (mem : piece ∈ list.splitOnP p) : piece <:+: list := by
  obtain ⟨first, rest, split, -, inside, -⟩ := splitOnP_pieces (p := p) list
  exact inside piece (split ▸ mem)

end Search
