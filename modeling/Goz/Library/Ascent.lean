import Mathlib.Combinatorics.Pigeonhole
import Mathlib.Data.Finset.Card
import Mathlib.Tactic

namespace Ascent

open Option

variable {ι : Type*} {node : ι} {k : Nat} {mid : ι} {j : Nat} {top : ι} {up' : ι → Option ι} {last : ι} {n : Nat}

def ascend (up : ι → Option ι) : Nat → ι → Option ι
  | 0, node => some node
  | k + 1, node => (up node).bind (ascend up k)

def trail (up : ι → Option ι) : Nat → ι → List ι
  | 0, _ => []
  | hops + 1, node =>
    node :: match up node with
      | none => []
      | some above => trail up hops above

variable {up : ι → Option ι}

@[simp] theorem ascend_zero (node : ι) : ascend up 0 node = some node := rfl

theorem ascend_succ (k : Nat) (node : ι) : ascend up (k + 1) node = (up node).bind (ascend up k) := rfl

theorem ascend_one (node : ι) : ascend up 1 node = up node := by
  cases above : up node <;> simp [ascend_succ, above]

theorem ascend_add (j k : Nat) (node : ι) : ascend up (j + k) node = (ascend up j node).bind (ascend up k) := by
  induction j generalizing node with
  | zero => simp
  | succ j ih =>
    rw [Nat.add_right_comm, ascend_succ, ascend_succ]
    cases up node with
    | none => rfl
    | some above => exact ih above

theorem ascend_of_ascend (at_ : ascend up j node = some mid) : ascend up (j + k) node = ascend up k mid := by
  rw [ascend_add, at_, bind_some]

theorem ascend_prior (le : j ≤ k) (at_ : ascend up k node = some last) :
    ∃ mid, ascend up j node = some mid ∧ ascend up (k - j) mid = some last := by
  have split : j + (k - j) = k := by omega
  rw [← split, ascend_add] at at_
  exact bind_eq_some_iff.mp at_

theorem ascend_last (at_ : ascend up (k + 1) node = some last) :
    ∃ below, ascend up k node = some below ∧ up below = some last := by
  rw [ascend_add] at at_
  obtain ⟨below, before, step⟩ := bind_eq_some_iff.mp at_
  rw [ascend_one] at step
  exact ⟨below, before, step⟩

theorem le_of_top (at_ : ascend up k node = some top) (end_ : up top = none)
    (reached : ascend up j node = some last) : j ≤ k := by
  by_contra beyond
  have split : j = k + ((j - k - 1) + 1) := by omega
  rw [split, ascend_of_ascend at_, ascend_succ, end_] at reached
  cases reached

theorem first_hit {target : ι} (at_ : ascend up n node = some target) :
    ∃ m ≤ n, ascend up m node = some target ∧ ∀ i < m, ascend up i node ≠ some target := by
  classical
  have hit : ∃ m, ascend up m node = some target := ⟨n, at_⟩
  exact ⟨Nat.find hit, Nat.find_min' hit at_, Nat.find_spec hit, fun i => Nat.find_min hit⟩

theorem ascend_congr
    (same : ∀ j < k, ∀ mid, ascend up j node = some mid → up' mid = up mid) : ascend up' k node = ascend up k node := by
  induction k generalizing node with
  | zero => rfl
  | succ k ih =>
    rw [ascend_succ, ascend_succ, same 0 (Nat.succ_pos k) node rfl]
    cases above : up node with
    | none => rfl
    | some first =>
      apply ih
      intro j lt mid at_
      apply same (j + 1) (Nat.succ_lt_succ lt)
      rw [ascend_succ, above]
      exact at_

section Cycles

variable {k : Nat} {node : ι}

theorem up_of_cycle (pos : 0 < k) (cycle : ascend up k node = some node)
    (at_ : ascend up j node = some mid) : ∃ above, up mid = some above := by
  have around : ∀ n, ascend up (n * k) node = some node := by
    intro n
    induction n with
    | zero => simp
    | succ n ih => rw [Nat.succ_mul, ascend_of_ascend ih, cycle]
  have le : j + 1 ≤ (j + 1) * k := Nat.le_mul_of_pos_right _ pos
  obtain ⟨next, at', -⟩ := ascend_prior le (around (j + 1))
  rw [ascend_of_ascend at_, ascend_one] at at'
  exact ⟨next, at'⟩

theorem cycle_at (cycle : ascend up k node = some node) (le : j ≤ k)
    (at_ : ascend up j node = some mid) : ascend up k mid = some mid := by
  obtain ⟨mid', at', back⟩ := ascend_prior le cycle
  obtain rfl : mid = mid' := some.inj (at_.symm.trans at')
  have split : k = (k - j) + j := by omega
  rw [split, ascend_of_ascend back, at_]

theorem cycle_first (pos : 0 < k) (cycle : ascend up k node = some node) :
    ∃ above, up node = some above ∧ ascend up (k - 1) above = some node := by
  have one : 1 ≤ k := pos
  obtain ⟨above, first, back⟩ := ascend_prior one cycle
  rw [ascend_one] at first
  exact ⟨above, first, back⟩

theorem cycle_last (pos : 0 < k) (cycle : ascend up k node = some node) :
    ∃ below, ascend up (k - 1) node = some below ∧ up below = some node := by
  apply ascend_last
  rwa [Nat.sub_add_cancel pos]

theorem exists_top [DecidableEq ι] {nodes : Finset ι} (inside : ∀ j mid, ascend up j node = some mid → mid ∈ nodes)
    (acyclic : ∀ j mid, ascend up j node = some mid → ∀ n, 0 < n → ascend up n mid ≠ some mid) :
    ∃ j top, ascend up j node = some top ∧ up top = none := by
  by_contra endless
  push Not at endless
  have some_ : ∀ j, ∃ mid, ascend up j node = some mid := by
    intro j
    induction j with
    | zero => exact ⟨node, rfl⟩
    | succ j ih =>
      obtain ⟨mid, at_⟩ := ih
      obtain ⟨above, next⟩ := ne_none_iff_exists'.mp (endless j mid at_)
      exact ⟨above, by rw [ascend_of_ascend at_, ascend_one, next]⟩
  choose walk at_ using some_
  have room : nodes.card < (Finset.range (nodes.card + 1)).card := by simp
  obtain ⟨i, -, j, -, ne, same⟩ :=
    Finset.exists_ne_map_eq_of_card_lt_of_maps_to room fun j _ => inside j (walk j) (at_ j)
  -- two equal places on the way close a cycle
  have close : ∀ i j, i < j → walk i = walk j → False := by
    intro i j lt same
    apply acyclic i (walk i) (at_ i) (j - i) (by omega)
    have split : i + (j - i) = j := by omega
    have there := at_ j
    rw [← split, ascend_of_ascend (at_ i)] at there
    rw [there, split, same]
  rcases Nat.lt_or_gt_of_ne ne with lt | gt
  · exact close i j lt same
  · exact close j i gt same.symm

end Cycles

variable {hops : Nat}

theorem trail_last (at_ : ascend up k node = some top) (end_ : up top = none)
    (lt : k < hops) : (trail up hops node).getLast? = some top := by
  induction hops generalizing k node with
  | zero => omega
  | succ hops ih =>
    cases k with
    | zero =>
      obtain rfl : node = top := some.inj at_
      simp [trail, end_]
    | succ k =>
      rw [ascend_succ] at at_
      obtain ⟨above, first, rest⟩ := bind_eq_some_iff.mp at_
      have last := ih rest (by omega)
      simp only [trail, first]
      rw [List.getLast?_cons, last]
      rfl

theorem trail_getLast? (node : ι) (pos : 0 < hops) :
    ∃ k < hops, ∃ top, ascend up k node = some top ∧ (trail up hops node).getLast? = some top := by
  induction hops generalizing node with
  | zero => omega
  | succ hops ih =>
    cases above : up node with
    | none => exact ⟨0, pos, node, rfl, by simp [trail, above]⟩
    | some next =>
      cases hops with
      | zero => exact ⟨0, pos, node, rfl, by simp [trail, above]⟩
      | succ hops =>
        obtain ⟨k, lt, top, at_, last⟩ := ih next (Nat.succ_pos hops)
        refine ⟨k + 1, by omega, top, by rw [ascend_succ, above]; exact at_, ?_⟩
        rw [trail, above, List.getLast?_cons, last]
        rfl

theorem trail_eq {m : Nat} (at_ : ascend up k node = some top) (end_ : up top = none) (lt : k < n)
    (lt' : k < m) : trail up n node = trail up m node := by
  induction k generalizing n m node with
  | zero =>
    obtain rfl : node = top := some.inj at_
    obtain ⟨n, rfl⟩ : ∃ j, n = j + 1 := ⟨n - 1, by omega⟩
    obtain ⟨m, rfl⟩ : ∃ j, m = j + 1 := ⟨m - 1, by omega⟩
    simp [trail, end_]
  | succ k ih =>
    obtain ⟨above, first, rest⟩ := bind_eq_some_iff.mp at_
    obtain ⟨n, rfl⟩ : ∃ j, n = j + 1 := ⟨n - 1, by omega⟩
    obtain ⟨m, rfl⟩ : ∃ j, m = j + 1 := ⟨m - 1, by omega⟩
    simp only [trail, first]
    rw [ih rest (show k < n by omega) (show k < m by omega)]

theorem mem_trail {x : ι} (mem : x ∈ trail up hops node) : ∃ k < hops, ascend up k node = some x := by
  induction hops generalizing node with
  | zero => simp [trail] at mem
  | succ hops ih =>
    rcases List.mem_cons.mp mem with rfl | above
    · exact ⟨0, Nat.succ_pos hops, rfl⟩
    · cases first : up node with
      | none => simp [first] at above
      | some next =>
        rw [first] at above
        obtain ⟨k, lt, at_⟩ := ih above
        exact ⟨k + 1, by omega, by rw [ascend_succ, first]; exact at_⟩

theorem trail_add (at_ : ascend up k node = some mid) (hops : Nat) :
    trail up (k + hops) node = trail up k node ++ trail up hops mid := by
  induction k generalizing node with
  | zero =>
    obtain rfl : node = mid := some.inj at_
    simp [trail]
  | succ k ih =>
    obtain ⟨above, first, rest⟩ := bind_eq_some_iff.mp at_
    rw [Nat.add_right_comm, trail, trail, first]
    simp only [ih rest, List.cons_append]

theorem trail_congr
    (same : ∀ j < hops, ∀ mid, ascend up j node = some mid → up' mid = up mid) : trail up' hops node = trail up hops node := by
  induction hops generalizing node with
  | zero => rfl
  | succ hops ih =>
    rw [trail, trail, same 0 (Nat.succ_pos hops) node rfl]
    cases first : up node with
    | none => rfl
    | some above =>
      simp only
      rw [ih fun j lt mid at_ => same (j + 1) (by omega) mid (by rw [ascend_succ, first]; exact at_)]

theorem ascend_ne_of_top {i : Nat} (at_ : ascend up k node = some mid) (lt : i < k)
    (way : ascend up n node = some top) (end_ : up top = none) : ascend up i node ≠ some mid := by
  intro early
  have cycle : ascend up (k - i) mid = some mid := by
    rw [← ascend_of_ascend early, Nat.add_sub_cancel' lt.le, at_]
  have le := le_of_top way end_ early
  rw [← Nat.add_sub_cancel' le, ascend_of_ascend early] at way
  obtain ⟨above, more⟩ := up_of_cycle (by omega) cycle way
  rw [end_] at more
  cases more

theorem trail_related {κ : Type*} {up' : κ → Option κ} {R : ι → κ → Prop}
    (step : ∀ a b, R a b → Option.Rel R (up a) (up' b)) (hops : Nat) {a : ι} {b : κ} (start : R a b) :
    List.Forall₂ R (trail up hops a) (trail up' hops b) := by
  induction hops generalizing a b with
  | zero => exact .nil
  | succ hops ih =>
    apply List.Forall₂.cons start
    have above := step a b start
    revert above
    cases up a <;> cases up' b
    · exact fun _ => .nil
    · exact nofun
    · exact nofun
    · rintro ⟨above⟩
      exact ih above

end Ascent
