import Mathlib.Data.List.Sort
import Mathlib.Data.List.SplitBy
import Mathlib.Data.List.TakeWhile
import Mathlib.Tactic

namespace Smallest

open List

variable {α : Type*} {le' : α → α → Bool}

structure Linear (le : α → α → Bool) : Prop where
  trans : ∀ a b c, le a b = true → le b c = true → le a c = true
  total : ∀ a b, (le a b || le b a) = true
  antisymm : ∀ a b, le a b = true → le b a = true → a = b

def smallest (le : α → α → Bool) (n : Nat) (list : List α) : List α := (list.mergeSort le).take n

variable {le : α → α → Bool} {n : Nat} {left right : List α} (linear : Linear le)
include linear

theorem Linear.refl (a : α) : le a a = true := by simpa using linear.total a a

theorem Linear.sorted (list : List α) : (list.mergeSort le).Pairwise fun a b => le a b = true :=
  pairwise_mergeSort linear.trans linear.total list

theorem Linear.sort_eq (perm : left.Perm right) (sorted : right.Pairwise fun a b => le a b = true) :
    left.mergeSort le = right :=
  Perm.eq_of_pairwise (fun a b _ _ => linear.antisymm a b) (linear.sorted left) sorted
    ((mergeSort_perm left le).trans perm)

theorem Linear.sort_congr (perm : left.Perm right) : left.mergeSort le = right.mergeSort le :=
  linear.sort_eq (perm.trans (mergeSort_perm right le).symm) (linear.sorted right)

theorem Linear.congr (perm : left.Perm right) : smallest le n left = smallest le n right := by
  rw [smallest, linear.sort_congr perm, smallest]

theorem Linear.flip : Linear fun a b => le b a where
  trans := fun a b c ab bc => linear.trans c b a bc ab
  total := fun a b => linear.total b a
  antisymm := fun a b ab ba => linear.antisymm a b ba ab

theorem Linear.reverse_sort (list : List α) :
    (list.mergeSort le).reverse = list.mergeSort fun a b => le b a := by
  refine (linear.flip.sort_eq ?_ (pairwise_reverse.mpr (linear.sorted list))).symm
  exact (mergeSort_perm list le).symm.trans (reverse_perm _).symm

omit linear

theorem merge_congr (le : α → α → Bool) (agree : ∀ a ∈ left, ∀ b ∈ right, le' a b = le a b) :
    merge left right le' = merge left right le := by
  fun_induction merge left right le with
  | case1 => simp
  | case2 => simp
  | case3 a left b right before ih =>
    rw [cons_merge_cons, agree a (by simp) b (by simp), if_pos before]
    exact congrArg (a :: ·) (ih fun x inLeft => agree x (mem_cons_of_mem _ inLeft))
  | case4 a left b right after_ ih =>
    rw [cons_merge_cons, agree a (by simp) b (by simp), if_neg after_]
    exact congrArg (b :: ·) (ih fun x inLeft y inRight => agree x inLeft y (mem_cons_of_mem _ inRight))

variable (linear : Linear le)
include linear

theorem Linear.merge_eq_sort (first : left.Pairwise fun a b => le a b = true)
    (second : right.Pairwise fun a b => le a b = true) : merge left right le = (left ++ right).mergeSort le :=
  (linear.sort_eq (merge_perm_append le).symm
    (pairwise_merge linear.trans linear.total left right first second)).symm

theorem Linear.cons_of_count {x : α} {list : List α} (many : n ≤ list.countP (le · x)) :
    smallest le n (x :: list) = smallest le n list := by
  have sorted := linear.sorted list
  have perm := mergeSort_perm list le
  unfold smallest
  set all_ := list.mergeSort le
  set front := all_.takeWhile (le · x)
  set back := all_.dropWhile (le · x)
  have whole : front ++ back = all_ := takeWhile_append_dropWhile
  have below : ∀ a ∈ front, le a x = true := fun a mem => mem_takeWhile_imp (p := (le · x)) mem
  rw [← whole, pairwise_append] at sorted
  obtain ⟨frontSorted, backSorted, apart⟩ := sorted
  have above : ∀ b ∈ back, le b x = false ∧ le x b = true := by
    cases shape : back with
    | nil => simp
    | cons first rest =>
      have outside : le first x = false := by
        have head := head?_dropWhile_not (le · x) all_
        rw [show all_.dropWhile (le · x) = first :: rest from shape] at head
        simpa using head
      have ahead : le x first = true := by simpa [outside] using linear.total first x
      rw [shape] at backSorted
      intro b mem
      rcases mem_cons.mp mem with rfl | mem
      · exact ⟨outside, ahead⟩
      · have later := rel_of_pairwise_cons backSorted mem
        refine ⟨?_, linear.trans _ _ _ ahead later⟩
        by_contra inside
        rw [linear.trans _ _ _ later (by simpa using inside)] at outside
        cases outside
  have count : list.countP (le · x) = front.length := by
    rw [← perm.countP_eq, ← whole, countP_append, countP_eq_length.mpr below, countP_eq_zero.mpr, Nat.add_zero]
    intro b mem
    simp [(above b mem).1]
  have placed : (x :: list).mergeSort le = front ++ x :: back := by
    apply linear.sort_eq
    · exact ((perm.symm.trans (by rw [whole])).cons x).trans perm_middle.symm
    · rw [pairwise_append, pairwise_cons]
      refine ⟨frontSorted, ⟨fun b mem => (above b mem).2, backSorted⟩, fun a inFront b inBack => ?_⟩
      rcases mem_cons.mp inBack with rfl | inBack
      · exact below a inFront
      · exact apart a inFront b inBack
  rw [placed, ← whole, take_append_of_le_length (by omega), take_append_of_le_length (by omega)]

theorem Linear.append_left (n : Nat) (left right : List α) :
    smallest le n (smallest le n left ++ right) = smallest le n (left ++ right) := by
  have sorted := linear.sorted left
  have perm := mergeSort_perm left le
  set all_ := left.mergeSort le
  rw [← take_append_drop n all_, pairwise_append] at sorted
  have skip : ∀ rest, rest <:+ all_.drop n →
      smallest le n (rest ++ (all_.take n ++ right)) = smallest le n (all_.take n ++ right) := by
    intro rest
    induction rest with
    | nil => intro; rfl
    | cons b rest ih =>
      intro inside
      have mem : b ∈ all_.drop n := inside.subset mem_cons_self
      have full : (all_.take n).length = n := by
        have some_ := length_pos_of_mem mem
        rw [length_drop] at some_
        rw [length_take]
        omega
      rw [cons_append, linear.cons_of_count, ih ((suffix_cons b rest).trans inside)]
      rw [countP_append, countP_append, countP_eq_length.mpr fun a inFront => sorted.2.2 a inFront b mem]
      omega
  have parts : (left ++ right).Perm (all_.drop n ++ (all_.take n ++ right)) := by
    rw [← append_assoc]
    refine Perm.append_right right (perm.symm.trans ?_)
    nth_rewrite 1 [← take_append_drop n all_]
    exact perm_append_comm
  rw [linear.congr parts, skip _ suffix_rfl]
  rfl

theorem Linear.append_congr {left' right' : List α} (first : smallest le n left = smallest le n left')
    (second : smallest le n right = smallest le n right') : smallest le n (left ++ right) = smallest le n (left' ++ right') := by
  rw [← linear.append_left n left right, first, linear.append_left, linear.congr perm_append_comm,
    ← linear.append_left n right left', second, linear.append_left, linear.congr perm_append_comm]

theorem Linear.flatMap_congr {ι : Type*} {f g : ι → List α} {parts : List ι}
    (same : ∀ i ∈ parts, smallest le n (f i) = smallest le n (g i)) :
    smallest le n (parts.flatMap f) = smallest le n (parts.flatMap g) := by
  induction parts with
  | nil => rfl
  | cons i rest ih =>
    rw [flatMap_cons, flatMap_cons]
    exact linear.append_congr (same i mem_cons_self) (ih fun j mem => same j (mem_cons_of_mem _ mem))

omit linear

theorem take_smallest {m : Nat} (le_ : m ≤ n) (list : List α) : (smallest le n list).take m = smallest le m list := by
  rw [smallest, smallest, take_take, Nat.min_eq_left le_]

section Map

variable {β : Type*} {f : α → β} {r : α → α → Bool} {r' : β → β → Bool} {list : List α}

variable (agree : ∀ a ∈ list, ∀ b ∈ list, r' (f a) (f b) = r a b)
include agree

theorem splitByLoop_map {last : α}
    (agree' : ∀ b ∈ list, r' (f last) (f b) = r last b) (group : List α) (groups : List (List α)) :
    List.splitBy.loop r' (list.map f) (f last) (group.map f) (groups.map (List.map f)) =
      (List.splitBy.loop r list last group groups).map (List.map f) := by
  induction list generalizing last group groups with
  | nil => simp [List.splitBy.loop]
  | cons next rest ih =>
    have later : ∀ a ∈ rest, ∀ b ∈ rest, r' (f a) (f b) = r a b := fun a left b right =>
      agree a (mem_cons_of_mem _ left) b (mem_cons_of_mem _ right)
    have first : ∀ b ∈ rest, r' (f next) (f b) = r next b := fun b right =>
      agree next mem_cons_self b (mem_cons_of_mem _ right)
    rw [map_cons, List.splitBy.loop, List.splitBy.loop, agree' next mem_cons_self]
    cases r last next with
    | true => exact ih later first (last :: group) groups
    | false => simpa using ih later first [] ((last :: group).reverse :: groups)

theorem splitBy_map :
    (list.map f).splitBy r' = (list.splitBy r).map (List.map f) := by
  cases list with
  | nil => rfl
  | cons first rest =>
    exact splitByLoop_map (fun a left b right => agree a (mem_cons_of_mem _ left) b (mem_cons_of_mem _ right))
      (fun b right => agree first mem_cons_self b (mem_cons_of_mem _ right)) [] []

omit agree

theorem sort_congr_of_mem (agree : ∀ a ∈ list, ∀ b ∈ list, le' a b = le a b) :
    list.mergeSort le' = list.mergeSort le := by
  have mapped : (list.mergeSort le).map id = (list.map id).mergeSort le' := map_mergeSort fun a left b right =>
    (agree a left b right).symm
  rw [map_id, map_id] at mapped
  exact mapped.symm

theorem splitBy_congr_of_mem {s : α → α → Bool} (agree : ∀ a ∈ list, ∀ b ∈ list, s a b = r a b) :
    list.splitBy s = list.splitBy r := by
  have mapped : (list.map id).splitBy s = (list.splitBy r).map (List.map id) := splitBy_map agree
  rwa [map_id, map_id_fun, map_id] at mapped

end Map

variable {κ : Type*} [DecidableEq κ] {key : α → κ} {list : List α}

theorem key_eq_of_mem_splitBy {group : List α} (inside : group ∈ list.splitBy fun a b => key a = key b) {a b : α}
    (left : a ∈ group) (right : b ∈ group) : key a = key b := by
  have chain := (isChain_of_mem_splitBy inside).imp fun _ _ same => (decide_eq_true_iff.mp same : key _ = key _)
  have pairs : group.Pairwise fun a b => key a = key b := by
    have : Trans (fun a b : α => key a = key b) (fun a b => key a = key b) (fun a b => key a = key b) := ⟨Eq.trans⟩
    exact isChain_iff_pairwise.mp chain
  have : Std.Symm fun a b : α => key a = key b := ⟨fun _ _ => Eq.symm⟩
  exact Pairwise.forall_of_forall (R := fun a b => key a = key b) (fun _ _ => rfl) pairs left right

theorem pairwise_splitBy {le : κ → κ → Prop} (antisymm : ∀ x y, le x y → le y x → x = y)
    (sorted : list.Pairwise fun a b => le (key a) (key b)) :
    (list.splitBy fun a b => key a = key b).Pairwise fun g h =>
      ∀ a ∈ g, ∀ b ∈ h, key a ≠ key b := by
  have across := (pairwise_flatten.mp ((flatten_splitBy (fun a b => key a = key b) list).symm ▸ sorted)).2
  have ends := isChain_getLast_head_splitBy (fun a b => key a = key b) list
  have inside : ∀ g ∈ list.splitBy fun a b => key a = key b, ∀ a ∈ g, ∀ b ∈ g, key a = key b := fun g mem a inA b inB =>
    key_eq_of_mem_splitBy mem inA inB
  generalize (list.splitBy fun a b => key a = key b) = groups at across ends inside
  induction groups with
  | nil => exact .nil
  | cons g rest ih =>
    rw [pairwise_cons] at across ⊢
    refine ⟨fun h mem a inG b inH same => ?_,
      ih across.2 (isChain_cons.mp ends).2 fun g mem => inside g (mem_cons_of_mem _ mem)⟩
    cases rest with
    | nil => cases mem
    | cons next others =>
      obtain ⟨some_, someNext, differ⟩ := (isChain_cons_cons.mp ends).1
      -- between `a` and `b` lie the last key of its group and the first of the next
      have lastEq := inside g mem_cons_self a inG _ (getLast_mem some_)
      have step := across.1 next mem_cons_self _ (getLast_mem some_) _ (head_mem someNext)
      have back : key (next.head someNext) = key b ∨ le (key (next.head someNext)) (key b) := by
        rcases mem_cons.mp mem with rfl | later
        · exact .inl (inside h (mem_cons_of_mem _ mem_cons_self) _ (head_mem someNext) b inH)
        · exact .inr ((pairwise_cons.mp across.2).1 h later _ (head_mem someNext) b inH)
      rw [decide_eq_false_iff_not] at differ
      apply differ
      rcases back with eq | le_
      · rw [eq, ← same, lastEq]
      · rw [← same, lastEq] at le_
        exact antisymm _ _ step le_

end Smallest
