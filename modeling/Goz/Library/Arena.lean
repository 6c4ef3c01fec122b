import Mathlib.Data.List.Basic
import Mathlib.Data.List.Infix
import Mathlib.Tactic

namespace Arena

open List

variable {α : Type*} {i : Nat} {cells : List (List α)} {cell buf : List α} {fill : α} {off len : Nat}

def join (sep : α) (cells : List (List α)) : List α := cells.flatMap (· ++ [sep])

def start (sep : α) (cells : List (List α)) (i : Nat) : Nat := (join sep (cells.take i)).length

def slice (buf : List α) (off len : Nat) : List α := (buf.drop off).take len

def blank (fill : α) (buf : List α) (off len : Nat) : List α :=
  buf.take off ++ replicate len fill ++ buf.drop (off + len)

@[simp] theorem join_nil (sep : α) : join sep [] = [] := rfl

@[simp] theorem join_cons (sep : α) (cell : List α) (cells : List (List α)) :
    join sep (cell :: cells) = cell ++ sep :: join sep cells := by simp [join]

@[simp] theorem join_append (sep : α) (left right : List (List α)) :
    join sep (left ++ right) = join sep left ++ join sep right := by simp [join]

@[simp] theorem start_zero (sep : α) (cells : List (List α)) : start sep cells 0 = 0 := by simp [start]

@[simp] theorem start_cons_succ (sep : α) (cell : List α) (cells : List (List α)) (i : Nat) :
    start sep (cell :: cells) (i + 1) = cell.length + 1 + start sep cells i := by
  simp only [start, take_succ_cons, join_cons, length_append, length_cons]
  omega

variable (sep : α)
include sep

theorem start_length (cells : List (List α)) : start sep cells cells.length = (join sep cells).length := by
  simp [start]

theorem start_append {left right : List (List α)} (bound : i ≤ left.length) :
    start sep (left ++ right) i = start sep left i := by
  simp [start, take_append_of_le_length bound]

theorem start_succ (at_ : cells[i]? = some cell) :
    start sep cells (i + 1) = start sep cells i + cell.length + 1 := by
  simp only [start, take_add_one, at_, Option.toList_some, join_append, length_append, join_cons, length_cons, join_nil, length_nil]
  omega

theorem start_mono (cells : List (List α)) {j : Nat} (le : i ≤ j) :
    start sep cells i ≤ start sep cells j := by
  have prefixed : cells.take i <+: cells.take j := take_prefix_take_left le
  obtain ⟨rest, split⟩ := prefixed
  simp only [start, ← split, join_append, length_append]
  omega

theorem start_le_length (cells : List (List α)) (i : Nat) : start sep cells i ≤ (join sep cells).length := by
  have split := take_append_drop i cells
  rw [← split, join_append, length_append, split]
  simp [start]

theorem length_le_join (cells : List (List α)) : cells.length ≤ (join sep cells).length := by
  induction cells with
  | nil => simp
  | cons cell rest ih =>
    rw [join_cons, length_append, length_cons, length_cons]
    omega

theorem start_add (cells : List (List α)) (i j : Nat) :
    start sep cells (i + j) = start sep cells i + start sep (cells.drop i) j := by
  simp [start, take_add]

theorem drop_join (cells : List (List α)) (i : Nat) :
    (join sep cells).drop (start sep cells i) = join sep (cells.drop i) := by
  conv_lhs => rw [← take_append_drop i cells, join_append]
  rw [take_append_drop, start, drop_left]

theorem take_join (cells : List (List α)) (i : Nat) :
    (join sep cells).take (start sep cells i) = join sep (cells.take i) := by
  conv_lhs => rw [← take_append_drop i cells, join_append]
  rw [take_append_drop, start, take_left]

theorem start_set (cells : List (List α)) (i j : Nat) (cell : List α)
    (same : ∀ old, cells[i]? = some old → cell.length = old.length) :
    start sep (cells.set i cell) j = start sep cells j := by
  induction cells generalizing i j with
  | nil => simp
  | cons first rest ih =>
    cases j with
    | zero => simp
    | succ j =>
      cases i with
      | zero =>
        have eq := same first (by simp)
        simp [eq]
      | succ i => simp [ih i j (fun old at_ => same old (by simpa using at_))]

omit sep

theorem getElem?_concat_cases {items : List α} {last item : α} (at_ : (items ++ [last])[i]? = some item) :
    items[i]? = some item ∧ i < items.length ∨ i = items.length ∧ item = last := by
  rcases Nat.lt_trichotomy i items.length with below | here | above
  · exact .inl ⟨by rwa [getElem?_append_left below] at at_, below⟩
  · subst here
    exact .inr ⟨rfl, by simpa using at_.symm⟩
  · have inside := (List.getElem?_eq_some_iff.mp at_).1
    simp only [length_append, length_singleton] at inside
    omega

theorem slice_append {first stop : Nat} (inside : stop ≤ buf.length) (more : List α) :
    slice (buf ++ more) first (stop - first) = slice buf first (stop - first) := by
  by_cases empty : stop ≤ first
  · rw [Nat.sub_eq_zero_of_le empty, slice, slice, take_zero, take_zero]
  · rw [slice, slice, drop_append_of_le_length (by omega), take_append_of_le_length]
    rw [length_drop]
    omega

/-- A joined buffer splits at each of its cells, whatever is put there. -/
theorem join_set (sep : α) (bound : i < cells.length) : ∃ front tail, front.length = start sep cells i ∧
    ∀ other, join sep (cells.set i other) = front ++ (other ++ tail) := by
  refine ⟨join sep (cells.take i), sep :: join sep (cells.drop (i + 1)), rfl, fun other => ?_⟩
  rw [set_eq_take_append_cons_drop, if_pos bound]
  simp

theorem slice_join (sep : α) (at_ : cells[i]? = some cell) :
    slice (join sep cells) (start sep cells i) cell.length = cell := by
  obtain ⟨bound, rfl⟩ := List.getElem?_eq_some_iff.mp at_
  obtain ⟨front, tail, size, split⟩ := join_set sep bound
  have whole := split cells[i]
  rw [set_getElem_self] at whole
  rw [whole, ← size]
  simp [slice]

theorem mem_slice_blank : ∀ x ∈ slice (blank fill buf off len) off len, x = fill := by
  intro x mem
  have short : (buf.take off).length ≤ off := length_take_le off buf
  rw [slice, blank, append_assoc, drop_append, drop_of_length_le short, nil_append] at mem
  rcases Nat.le_total off buf.length with inside | past
  · have here : off - (buf.take off).length = 0 := by
      rw [length_take_of_le inside, Nat.sub_self]
    rw [here, drop_zero, take_left' length_replicate] at mem
    exact eq_of_mem_replicate mem
  · rw [drop_of_length_le (show buf.length ≤ off + len by omega), append_nil] at mem
    exact eq_of_mem_replicate (mem_of_mem_drop (mem_of_mem_take mem))

theorem blank_join (sep fill : α) (at_ : cells[i]? = some cell) :
    blank fill (join sep cells) (start sep cells i) cell.length =
      join sep (cells.set i (replicate cell.length fill)) := by
  obtain ⟨bound, rfl⟩ := List.getElem?_eq_some_iff.mp at_
  obtain ⟨front, tail, size, split⟩ := join_set sep bound
  have whole := split cells[i]
  rw [set_getElem_self] at whole
  rw [whole, ← size, split]
  simp [blank]

end Arena
