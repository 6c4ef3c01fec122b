import Goz.Index.Cycles
import Goz.Library.Preorder
import Goz.Query.Scan

namespace Goz.Query

open Ascent VolumeIndex List Option

variable [Externals] {ix : VolumeIndex} {root : EntryIdx} {e : EntryIdx} {count : Nat} {p : EntryIdx} {depth : Nat}

theorem forest_of_integrity (ok : ix.Integrity) : Forest ix.entries.parent ix.children ix.Live where
  mem := fun p x => (ok.children p).2 x
  above := ok.parent_live
  nodup := fun p => (ok.children p).1.nodup

omit [Externals] in
@[simp] theorem items_none (count depth : Nat) : SubtreeWalk.items ix root count ⟨none, depth⟩ = [] := by
  cases count <;> rfl

def ahead (ix : VolumeIndex) (fuel depth : Nat) (e : EntryIdx) : List EntryIdx :=
  preorder ix.children (fuel - depth) e ++ rest ix.entries.parent ix.children fuel depth e

structure Under (ix : VolumeIndex) (root : EntryIdx) (depth : Nat) (e : EntryIdx) : Prop where
  live : ix.Live e
  way : ascend ix.entries.parent depth e = some root

variable (ok : ix.Integrity) {fuel n : Nat} {top : EntryIdx}
include ok

theorem rest_of_next (fuel depth : Nat) {sib : EntryIdx} (at_ : ix.entries.parent e = some p) (live : ix.Live e)
    (next : ix.entries.nextChild e = some sib) : rest ix.entries.parent ix.children fuel (depth + 1) e = ahead ix fuel (depth + 1) sib ∧
      ix.Live sib ∧ ix.entries.parent sib = some p := by
  have forest := forest_of_integrity ok
  obtain ⟨head, tails⟩ := forest.later_spec (fun p => (ok.children p).1) ((forest.mem p e).mpr ⟨live, at_⟩)
  rw [next] at head
  obtain ⟨tail, split⟩ : ∃ tail, later ix.entries.parent ix.children e = sib :: tail := by
    cases later_ : later ix.entries.parent ix.children e with
    | nil => simp [later_] at head
    | cons x tail =>
      obtain rfl : sib = x := by simpa [later_] using head
      exact ⟨tail, rfl⟩
  obtain ⟨mem, tail_⟩ := tails sib tail split
  obtain ⟨sibLive, sibAt⟩ := (forest.mem p sib).mp mem
  refine ⟨?_, sibLive, sibAt⟩
  rw [ahead, rest, rest, split, tail_, at_, sibAt, flatMap_cons, append_assoc]

theorem later_of_last (at_ : ix.entries.parent e = some p) (live : ix.Live e)
    (next : ix.entries.nextChild e = none) : later ix.entries.parent ix.children e = [] := by
  have forest := forest_of_integrity ok
  obtain ⟨head, -⟩ := forest.later_spec (fun p => (ok.children p).1) ((forest.mem p e).mpr ⟨live, at_⟩)
  rw [next] at head
  exact head?_eq_none_iff.mp head.symm

theorem children_of_first {down : EntryIdx} (first : ix.entries.firstChild e = some down) :
    ∃ others, ix.children e = down :: others ∧ ix.Live down ∧ ix.entries.parent down = some e ∧
      later ix.entries.parent ix.children down = others := by
  have linked := (ok.children e).1
  rw [first] at linked
  cases kids : ix.children e with
  | nil =>
    rw [kids] at linked
    cases linked
  | cons x others =>
    rw [kids] at linked
    obtain rfl := some.inj linked.1
    obtain ⟨live, above⟩ := ((forest_of_integrity ok).mem e down).mp (by simp [kids])
    exact ⟨others, rfl, live, above, by simp [later, above, kids]⟩

theorem children_of_none (first : ix.entries.firstChild e = none) : ix.children e = [] := by
  have head := (ok.children e).1.head
  rw [first] at head
  exact head?_eq_none_iff.mp head.symm

theorem under_of_climbBack {y : EntryIdx} (under : Under ix root (depth + 1) e)
    (goes : (climbBack ix root (depth + 1) e).cur = some y) :
    ∃ d, (climbBack ix root (depth + 1) e).depth = d + 1 ∧ Under ix root (d + 1) y := by
  induction depth generalizing e with
  | zero =>
    have at_ : ix.entries.parent e = some root := (ascend_one e).symm.trans under.way
    unfold climbBack at goes ⊢
    cases next : ix.entries.nextChild e with
    | some sib =>
      obtain ⟨-, live, above⟩ := rest_of_next ok 0 0 at_ under.live next
      simp only [next, Option.some.injEq] at goes
      exact ⟨0, rfl, goes ▸ live, by rw [← goes, ascend_one, above]⟩
    | none => simp [next] at goes
  | succ depth ih =>
    obtain ⟨p, at_, way⟩ := bind_eq_some_iff.mp under.way
    unfold climbBack at goes ⊢
    cases next : ix.entries.nextChild e with
    | some sib =>
      obtain ⟨-, live, above⟩ := rest_of_next ok 0 0 at_ under.live next
      simp only [next, Option.some.injEq] at goes
      exact ⟨depth + 1, rfl, goes ▸ live, by rw [← goes, ascend_succ, above]; exact way⟩
    | none =>
      have up : Under ix root (depth + 1) p := ⟨ok.parent_live e p under.live at_, way⟩
      simp only [next, at_] at goes ⊢
      split at goes
      · cases goes
      case isFalse away =>
        rw [if_neg away]
        exact ih up goes

theorem under_of_items : ∀ {depth e x}, Under ix root (depth + 1) e →
    x ∈ SubtreeWalk.items ix root count ⟨some e, depth + 1⟩ → ∃ d, Under ix root (d + 1) x := by
  induction count with
  | zero => exact fun _ mem => absurd mem not_mem_nil
  | succ count ih =>
    intro depth e x under mem
    rcases mem_cons.mp mem with rfl | later
    · exact ⟨depth, under⟩
    · unfold SubtreeWalk.advance at later
      cases first : ix.entries.firstChild e with
      | some down =>
        obtain ⟨-, -, live, above, -⟩ := children_of_first ok first
        have deeper : Under ix root (depth + 1 + 1) down := ⟨live, by rw [ascend_succ, above]; exact under.way⟩
        simp only [first] at later
        exact ih deeper later
      | none =>
        simp only [first] at later
        cases goes : (climbBack ix root (depth + 1) e).cur with
        | none =>
          cases count with
          | zero => exact absurd later not_mem_nil
          | succ count => simp [SubtreeWalk.items, goes] at later
        | some y =>
          obtain ⟨d, level, next⟩ := under_of_climbBack ok under goes
          have there : climbBack ix root (depth + 1) e = ⟨some y, d + 1⟩ := by
            rw [← goes, ← level]
          exact ih next (there ▸ later)

theorem under_of_subtree {x : EntryIdx} (mem : x ∈ subtreeEntries ix root count) : ∃ d, Under ix root (d + 1) x := by
  unfold subtreeEntries at mem
  cases first : ix.entries.firstChild root with
  | none =>
    rw [first] at mem
    cases count <;> exact absurd mem not_mem_nil
  | some down =>
    obtain ⟨-, -, live, above, -⟩ := children_of_first ok first
    rw [first] at mem
    exact under_of_items ok ⟨live, by rw [ascend_one, above]⟩ mem

variable (ends : ascend ix.entries.parent n root = some top) (end_ : ix.entries.parent top = none)
include ends end_

theorem items_climbBack
    (step : ∀ depth e, Under ix root (depth + 1) e →
      SubtreeWalk.items ix root count ⟨some e, depth + 1⟩ = (ahead ix fuel (depth + 1) e).take count) (under : Under ix root (depth + 1) e) :
    SubtreeWalk.items ix root count (climbBack ix root (depth + 1) e) =
      (rest ix.entries.parent ix.children fuel (depth + 1) e).take count := by
  induction depth generalizing e with
  | zero =>
    have at_ : ix.entries.parent e = some root := (ascend_one e).symm.trans under.way
    unfold climbBack
    cases next : ix.entries.nextChild e with
    | some sib =>
      obtain ⟨same, live, above⟩ := rest_of_next ok fuel 0 at_ under.live next
      rw [same]
      exact step 0 sib ⟨live, by rw [ascend_one, above]⟩
    | none =>
      simp [rest, later_of_last ok at_ under.live next, at_]
  | succ depth ih =>
    obtain ⟨p, at_, way⟩ := bind_eq_some_iff.mp under.way
    unfold climbBack
    cases next : ix.entries.nextChild e with
    | some sib =>
      obtain ⟨same, live, above⟩ := rest_of_next ok fuel (depth + 1) at_ under.live next
      rw [same]
      exact step (depth + 1) sib ⟨live, by rw [ascend_succ, above]; exact way⟩
    | none =>
      have notRoot : p ≠ root := by
        rintro rfl
        have same := ascend_unique ends end_ way (rfl : ascend ix.entries.parent 0 p = some p)
        omega
      have up : Under ix root (depth + 1) p := ⟨ok.parent_live e p under.live at_, way⟩
      rw [rest, later_of_last ok at_ under.live next, at_]
      simpa [at_, notRoot] using ih up

theorem items_eq (deep : ∀ depth e, Under ix root depth e → depth < fuel) (count : Nat) :
    ∀ depth e, Under ix root (depth + 1) e →
      SubtreeWalk.items ix root count ⟨some e, depth + 1⟩ = (ahead ix fuel (depth + 1) e).take count := by
  induction count with
  | zero => intro depth e _; rw [take_zero]; rfl
  | succ count ih =>
    intro depth e under
    have room := deep _ e under
    obtain ⟨left, levels⟩ : ∃ left, fuel - (depth + 1) = left + 1 := ⟨fuel - (depth + 2), by omega⟩
    have less : fuel - (depth + 1 + 1) = left := by omega
    rw [ahead, levels, preorder, cons_append, take_succ_cons]
    refine congrArg (e :: ·) ?_
    show SubtreeWalk.items ix root count (SubtreeWalk.advance ix root e (depth + 1)) = _
    unfold SubtreeWalk.advance
    cases first : ix.entries.firstChild e with
    | some down =>
      obtain ⟨others, kids, downLive, above, later_⟩ := children_of_first ok first
      have whole : (ix.children e).flatMap (preorder ix.children left) ++ rest ix.entries.parent ix.children fuel (depth + 1) e =
          ahead ix fuel (depth + 1 + 1) down := by
        rw [ahead, less, rest.eq_def ix.entries.parent ix.children fuel (depth + 1 + 1) down]
        simp only [later_, above, less, kids, flatMap_cons, append_assoc]
      rw [whole]
      exact ih (depth + 1) down ⟨downLive, by rw [ascend_succ, above]; exact under.way⟩
    | none =>
      rw [children_of_none ok first, flatMap_nil, nil_append]
      exact items_climbBack ok ends end_ ih under

theorem exists_depth : ∃ levels, ∀ depth e, Under ix root depth e → depth ≤ levels := by
  have finite : {depth | ∃ e < ix.entries.capacity, Under ix root depth e}.Finite := by
    have parts : {depth | ∃ e < ix.entries.capacity, Under ix root depth e} =
        ⋃ e ∈ {e | e < ix.entries.capacity}, {depth | Under ix root depth e} := by
      ext depth
      simp
    rw [parts]
    refine (Set.finite_lt_nat _).biUnion fun e _ => Set.Subsingleton.finite ?_
    intro j here k there
    exact ascend_unique ends end_ here.way there.way
  obtain ⟨levels, bound⟩ := finite.bddAbove
  exact ⟨levels, fun depth e under => bound ⟨e, ok.slots.live_lt e under.live, under⟩⟩

theorem subtreeEntries_eq : ∃ levels, (∀ depth e, Under ix root depth e → depth ≤ levels) ∧
    ∀ count, subtreeEntries ix root count = ((ix.children root).flatMap (preorder ix.children levels)).take count := by
  obtain ⟨levels, deep⟩ := exists_depth ok ends end_
  refine ⟨levels, deep, fun count => ?_⟩
  unfold subtreeEntries
  cases first : ix.entries.firstChild root with
  | none =>
    rw [children_of_none ok first, items_none]
    simp
  | some down =>
    obtain ⟨others, kids, live, above, later_⟩ := children_of_first ok first
    have under : Under ix root (0 + 1) down := ⟨live, (ascend_one down).trans above⟩
    rw [items_eq ok ends end_ (fun depth e there => Nat.lt_succ_of_le (deep depth e there)) count 0 down under]
    simp only [ahead, rest, later_, above, kids, flatMap_cons, append_nil, Nat.succ_eq_add_one, Nat.zero_add,
      Nat.add_sub_cancel]

end Goz.Query
