import Goz.Library.Ascent
import Goz.Library.Chain

namespace Ascent

open List Option

variable {ι : Type*} {node x : ι} {fuel : Nat} {top : ι} {k n : Nat}

/-- The nodes at or below `node`, each before its children, at most `fuel` levels of them. -/
def preorder (kids : ι → List ι) : Nat → ι → List ι
  | 0, _ => []
  | fuel + 1, node => node :: (kids node).flatMap (preorder kids fuel)

/-- A forest whose nodes know their children and the node above them. -/
structure Forest (up : ι → Option ι) (kids : ι → List ι) (held : ι → Prop) : Prop where
  mem : ∀ p x, x ∈ kids p ↔ held x ∧ up x = some p
  above : ∀ x p, held x → up x = some p → held p
  nodup : ∀ p, (kids p).Nodup

variable {up : ι → Option ι} {kids : ι → List ι} {held : ι → Prop}

theorem Forest.ascend_held (forest : Forest up kids held) (here : held x)
    (at_ : ascend up k x = some node) : held node := by
  induction k generalizing x with
  | zero => exact some.inj at_ ▸ here
  | succ k ih =>
    obtain ⟨p, first, rest⟩ := bind_eq_some_iff.mp at_
    exact ih (forest.above x p here first) rest

theorem Forest.mem_preorder (forest : Forest up kids held) (top : held node) :
    x ∈ preorder kids fuel node ↔ held x ∧ ∃ k < fuel, ascend up k x = some node := by
  induction fuel generalizing node with
  | zero => simp [preorder]
  | succ fuel ih =>
    rw [preorder, mem_cons, mem_flatMap]
    constructor
    · rintro (rfl | ⟨kid, child, inside⟩)
      · exact ⟨top, 0, Nat.succ_pos _, rfl⟩
      · obtain ⟨here, above⟩ := (forest.mem node kid).mp child
        obtain ⟨there, k, lt, at_⟩ := (ih here).mp inside
        refine ⟨there, k + 1, Nat.succ_lt_succ lt, ?_⟩
        rw [ascend_of_ascend at_, ascend_one, above]
    · rintro ⟨there, k, lt, at_⟩
      cases k with
      | zero => exact .inl (some.inj at_)
      | succ k =>
        obtain ⟨kid, before, last⟩ := ascend_last at_
        have here := forest.ascend_held there before
        exact .inr ⟨kid, (forest.mem node kid).mpr ⟨here, last⟩, (ih here).mpr ⟨there, k, Nat.lt_of_succ_lt_succ lt, before⟩⟩

theorem ascend_unique {j : Nat} (ends : ascend up n node = some top) (end_ : up top = none)
    (first : ascend up j x = some node) (second : ascend up k x = some node) : j = k := by
  have way₁ : ascend up (j + n) x = some top := by rw [ascend_of_ascend first, ends]
  have way₂ : ascend up (k + n) x = some top := by rw [ascend_of_ascend second, ends]
  have le := le_of_top way₁ end_ way₂
  have ge := le_of_top way₂ end_ way₁
  omega

theorem Forest.nodup_preorder (forest : Forest up kids held) (here : held node)
    (ends : ascend up n node = some top) (end_ : up top = none) : (preorder kids fuel node).Nodup := by
  induction fuel generalizing node n with
  | zero => exact nodup_nil
  | succ fuel ih =>
    have child : ∀ kid ∈ kids node, held kid ∧ up kid = some node := fun kid => (forest.mem node kid).mp
    have below : ∀ kid ∈ kids node, ∀ x ∈ preorder kids fuel kid, ∃ k, ascend up k x = some kid ∧
        ascend up (k + 1) x = some node := by
      intro kid mem x inside
      obtain ⟨-, k, -, at_⟩ := (forest.mem_preorder (child kid mem).1).mp inside
      exact ⟨k, at_, by rw [ascend_of_ascend at_, ascend_one, (child kid mem).2]⟩
    rw [preorder, nodup_cons, mem_flatMap, nodup_flatMap]
    refine ⟨?_, fun kid mem => ?_, ?_⟩
    · rintro ⟨kid, mem, inside⟩
      obtain ⟨k, -, at_⟩ := below kid mem node inside
      have same := ascend_unique ends end_ at_ (rfl : ascend up 0 node = some node)
      omega
    · have way : ascend up (n + 1) kid = some top := by
        rw [Nat.add_comm, ascend_of_ascend ((ascend_one kid).trans (child kid mem).2), ends]
      exact ih (child kid mem).1 way
    · refine (forest.nodup node).imp_of_mem fun {a b} inA inB differ x atA atB => ?_
      obtain ⟨j, first, way₁⟩ := below a inA x atA
      obtain ⟨k, second, way₂⟩ := below b inB x atB
      have same := ascend_unique ends end_ way₁ way₂
      obtain rfl : j = k := by omega
      exact differ (some.inj (first.symm.trans second))

variable [DecidableEq ι]

def later (up : ι → Option ι) (kids : ι → List ι) (node : ι) : List ι :=
  match up node with
  | none => []
  | some p => ((kids p).dropWhile (· ≠ node)).tail

/-- What follows the nodes below `node` in the preorder of the node `depth` levels above, where the nodes at
    level `d` have `fuel - d` levels left. -/
def rest (up : ι → Option ι) (kids : ι → List ι) (fuel : Nat) : Nat → ι → List ι
  | 0, _ => []
  | depth + 1, node => (later up kids node).flatMap (preorder kids (fuel - (depth + 1))) ++
      match up node with
      | none => []
      | some p => rest up kids fuel depth p

theorem Forest.later_spec (forest : Forest up kids held) {first next : ι → Option ι}
    (threads : ∀ p, Intrusive.Linked next (first p) (kids p)) {p : ι} (child : node ∈ kids p) :
    next node = (later up kids node).head? ∧
      ∀ sib tail, later up kids node = sib :: tail → sib ∈ kids p ∧ later up kids sib = tail := by
  have above := ((forest.mem p node).mp child).2
  have apart := forest.nodup p
  obtain ⟨front, back, whole⟩ := append_of_mem child
  have linked := threads p
  -- the siblings after a node that stands after `before`
  have cut : ∀ before x tail, kids p = before ++ x :: tail → up x = some p → later up kids x = tail := by
    intro before x tail split at_
    rw [split] at apart
    have absent : x ∉ before := fun mem => (nodup_append.mp apart).2.2 x mem x mem_cons_self rfl
    rw [later, at_]
    simp only
    rw [split, dropWhile_append_of_pos, dropWhile_cons_of_neg (by simp), tail_cons]
    intro y mem
    simpa using fun same : y = x => absent (same ▸ mem)
  have here := cut front node back whole above
  rw [whole] at linked
  refine ⟨by rw [here, linked.suffix.head], fun sib tail split => ?_⟩
  rw [here] at split
  subst split
  have mem : sib ∈ kids p := by simp [whole]
  exact ⟨mem, cut (front ++ [node]) sib tail (by simp [whole]) ((forest.mem p sib).mp mem).2⟩

end Ascent
