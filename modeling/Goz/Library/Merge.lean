import Mathlib.Data.List.Sort
import Mathlib.Tactic

namespace Merge

open Function List

variable {x : Spot} {len : Nat → Nat} {runs r : Nat} {cmp : Spot → Spot → Ordering}

abbrev Spot := Nat × Nat

def spots (len : Nat → Nat) (runs : Nat) : List Spot :=
  (range runs).flatMap fun r => (range (len r)).map fun k => (r, k)

def Before (cmp : Spot → Spot → Ordering) (x y : Spot) : Prop :=
  cmp x y = .lt ∨ cmp x y = .eq ∧ (x.1 < y.1 ∨ x.1 = y.1 ∧ x.2 < y.2)

instance (cmp : Spot → Spot → Ordering) (x y : Spot) : Decidable (Before cmp x y) :=
  inferInstanceAs (Decidable (_ ∨ _))

def merged (cmp : Spot → Spot → Ordering) (len : Nat → Nat) (runs : Nat) : List Spot :=
  (spots len runs).insertionSort fun x y => ¬ Before cmp y x

def Sorted (cmp : Spot → Spot → Ordering) (len : Nat → Nat) (runs : Nat) : Prop :=
  ∀ r < runs, ∀ i j, i < j → j < len r → cmp (r, i) (r, j) ≠ .gt

@[simp] theorem mem_spots : x ∈ spots len runs ↔ x.1 < runs ∧ x.2 < len x.1 := by
  obtain ⟨r, k⟩ := x
  simp [spots]

theorem nodup_spots : (spots len runs).Nodup := by
  apply nodup_flatMap.mpr
  constructor
  · intro r _
    exact nodup_range.map fun a b same => (Prod.mk.inj same).2
  · apply nodup_range.imp
    intro a b apart
    simp only [onFun, disjoint_left, mem_map, not_exists, not_and]
    intro x at_ k _ same
    obtain ⟨i, -, rfl⟩ := at_
    exact apart (Prod.mk.inj same).1.symm

theorem length_spots : (spots len runs).length = ((range runs).map len).sum := by
  simp [spots, length_flatMap]

theorem sum_update {pos : Nat → Nat} (run : r < runs) :
    ((range runs).map (update pos r (pos r + 1))).sum = ((range runs).map pos).sum + 1 := by
  have apart : ∀ n ≤ r, (range n).map (update pos r (pos r + 1)) = (range n).map pos := by
    intro n le
    apply map_congr_left
    intro k mem
    rw [update_of_ne]
    have lt := mem_range.mp mem
    omega
  induction runs with
  | zero => omega
  | succ n ih =>
    simp only [range_succ, map_append, sum_append, map_singleton, sum_singleton]
    by_cases last : r = n
    · subst last
      rw [apart r le_rfl, update_self, Nat.add_assoc]
    · rw [ih (by omega), update_of_ne (Ne.symm last)]
      omega

theorem perm_merged : (merged cmp len runs).Perm (spots len runs) := perm_insertionSort _ _

theorem mem_merged : x ∈ merged cmp len runs ↔ x.1 < runs ∧ x.2 < len x.1 :=
  perm_merged.mem_iff.trans mem_spots

theorem nodup_merged : (merged cmp len runs).Nodup := perm_merged.nodup_iff.mpr nodup_spots

theorem length_merged : (merged cmp len runs).length = ((range runs).map len).sum :=
  perm_merged.length_eq.trans length_spots

theorem Sorted.before (sorted : Sorted cmp len runs) {i j : Nat} (run : r < runs) (lt : i < j) (bound : j < len r) :
    Before cmp (r, i) (r, j) := by
  cases order : cmp (r, i) (r, j) with
  | lt => exact .inl order
  | eq => exact .inr ⟨order, .inr ⟨rfl, lt⟩⟩
  | gt => exact absurd order (sorted r run i j lt bound)

section Order

variable [Std.TransCmp cmp] {y z : Spot}

theorem Before.irrefl (x : Spot) : ¬ Before cmp x x := by
  simp [Before, Std.ReflCmp.compare_self]

theorem Before.trans (first : Before cmp x y) (second : Before cmp y z) : Before cmp x z := by
  rcases first with lt | ⟨eq, places⟩
  · rcases second with lt' | ⟨eq', -⟩
    · exact .inl (Std.TransCmp.lt_trans lt lt')
    · exact .inl (Std.TransCmp.lt_of_lt_of_eq lt eq')
  · rcases second with lt' | ⟨eq', places'⟩
    · exact .inl (Std.TransCmp.lt_of_eq_of_lt eq lt')
    · refine .inr ⟨Std.TransCmp.eq_trans eq eq', ?_⟩
      omega

theorem Before.asymm (first : Before cmp x y) : ¬ Before cmp y x := fun second =>
  Before.irrefl x (first.trans second)

theorem before_total (apart : x ≠ y) : Before cmp x y ∨ Before cmp y x := by
  have swap : cmp y x = (cmp x y).swap := Std.OrientedCmp.eq_swap
  have places : x.1 ≠ y.1 ∨ x.2 ≠ y.2 := by
    by_contra same
    push Not at same
    exact apart (Prod.ext same.1 same.2)
  cases order : cmp x y with
  | lt => exact .inl (.inl order)
  | gt => exact .inr (.inl (by rw [swap, order]; rfl))
  | eq =>
    have back : cmp y x = .eq := by rw [swap, order]; rfl
    by_cases first : x.1 < y.1 ∨ x.1 = y.1 ∧ x.2 < y.2
    · exact .inl (.inr ⟨order, first⟩)
    · refine .inr (.inr ⟨back, ?_⟩)
      omega

theorem not_before_trans (first : ¬ Before cmp y x) (second : ¬ Before cmp z y) : ¬ Before cmp z x := by
  intro back
  by_cases same : x = y
  · exact second (same ▸ back)
  · have either : Before cmp x y ∨ Before cmp y x := before_total same
    rcases either with ahead | behind
    · exact second (back.trans ahead)
    · exact first behind

theorem pairwise_merged : (merged cmp len runs).Pairwise (Before cmp) := by
  have total : Std.Total fun x y => ¬ Before cmp y x := ⟨fun x y => by
    by_cases ahead : Before cmp y x
    · exact .inr ahead.asymm
    · exact .inl ahead⟩
  have transitive : IsTrans Spot fun x y => ¬ Before cmp y x := ⟨fun _ _ _ => not_before_trans⟩
  have sorted : (merged cmp len runs).Pairwise fun x y => ¬ Before cmp y x := pairwise_insertionSort _ _
  apply (sorted.and nodup_merged).imp
  intro x y both
  exact (before_total both.2).resolve_right both.1

theorem eq_of_sorted {left right : List Spot} (sorted : left.Pairwise (Before cmp))
    (sorted' : right.Pairwise (Before cmp)) (same : ∀ x, x ∈ left ↔ x ∈ right) : left = right := by
  have distinct : ∀ {rows : List Spot}, rows.Pairwise (Before cmp) → rows.Nodup := by
    intro rows ordered
    apply ordered.imp
    intro x y ahead same
    exact Before.irrefl y (same ▸ ahead)
  have perm := (perm_ext_iff_of_nodup (distinct sorted) (distinct sorted')).mpr same
  apply perm.eq_of_pairwise _ sorted sorted'
  intro x y _ _ ahead behind
  exact absurd behind ahead.asymm

end Order

section Front

variable {gone : Spot → Prop} {pos next : Nat → Nat} {done todo : List Spot}

/-- Every run read up to `pos`: the merged order is behind the front up to the end of `done`, and
    what was read beyond is gone. -/
structure Front (cmp : Spot → Spot → Ordering) (len : Nat → Nat) (runs : Nat) (gone : Spot → Prop) (pos : Nat → Nat)
    (done todo : List Spot) : Prop where
  whole : done ++ todo = merged cmp len runs
  bound : ∀ r < runs, pos r ≤ len r
  taken : ∀ x ∈ done, x.2 < pos x.1
  early : ∀ x ∈ todo, x.2 < pos x.1 → gone x

structure Skims (len : Nat → Nat) (runs : Nat) (gone : Spot → Prop) (pos next : Nat → Nat) : Prop where
  le : ∀ r < runs, pos r ≤ next r
  bound : ∀ r < runs, next r ≤ len r
  past : ∀ r < runs, ∀ k, pos r ≤ k → k < next r → gone (r, k)
  head : ∀ r < runs, next r < len r → ¬ gone (r, next r)

structure Picks (cmp : Spot → Spot → Ordering) (len : Nat → Nat) (runs : Nat) (next : Nat → Nat) (r : Nat) : Prop where
  run : r < runs
  bound : next r < len r
  first : ∀ other < runs, next other < len other → other ≠ r → Before cmp (r, next r) (other, next other)

variable (front : Front cmp len runs gone pos done todo)
include front

theorem Front.mem :
    x ∈ done ∨ x ∈ todo ↔ x.1 < runs ∧ x.2 < len x.1 := by
  rw [← mem_append, front.whole, mem_merged]

theorem Front.weaken {gone' : Spot → Prop}
    (weaker : ∀ x, gone x → gone' x) : Front cmp len runs gone' pos done todo :=
  { front with early := fun x mem read => weaker x (front.early x mem read) }

variable (skims : Skims len runs gone pos next)
include skims

theorem Front.skimmed (mem : x ∈ todo) (read : x.2 < next x.1) : gone x := by
  by_cases before : x.2 < pos x.1
  · exact front.early x mem before
  · exact skims.past x.1 (front.mem.mp (.inr mem)).1 x.2 (by omega) read

theorem Front.stall (ended : ∀ r < runs, ¬ next r < len r) : ∀ x ∈ todo, gone x := by
  intro x mem
  obtain ⟨run, bound⟩ := front.mem.mp (.inr mem)
  have read := ended x.1 run
  exact front.skimmed skims mem (by omega)

theorem Front.skim :
    Front cmp len runs gone next done todo where
  whole := front.whole
  bound := skims.bound
  taken x mem := lt_of_lt_of_le (front.taken x mem) (skims.le x.1 (front.mem.mp (.inl mem)).1)
  early _ mem read := front.skimmed skims mem read

omit skims

omit front

variable [Std.TransCmp cmp]

theorem Picks.least (picks : Picks cmp len runs next r) (sorted : Sorted cmp len runs) (run : x.1 < runs)
    (bound : x.2 < len x.1) (ahead : next x.1 ≤ x.2) (other : x ≠ (r, next r)) : Before cmp (r, next r) x := by
  have toHead : x.1 ≠ r → Before cmp (r, next r) (x.1, next x.1) := picks.first x.1 run (by omega)
  have fromHead : next x.1 < x.2 → Before cmp (x.1, next x.1) x := fun lt => sorted.before run lt bound
  by_cases same : x.1 = r
  · subst same
    apply fromHead
    have apart : x.2 ≠ next x.1 := fun eq => other (Prod.ext rfl eq)
    omega
  · by_cases head : next x.1 = x.2
    · have first := toHead same
      rwa [head] at first
    · exact (toHead same).trans (fromHead (by omega))

variable (front : Front cmp len runs gone pos done todo)
include front

theorem Front.apart {y : Spot} (behind : x ∈ done) (ahead : y ∈ todo) :
    Before cmp x y := by
  have sorted : (done ++ todo).Pairwise (Before cmp) := by
    rw [front.whole]
    exact pairwise_merged
  exact (pairwise_append.mp sorted).2.2 x behind y ahead

theorem Front.sorted : todo.Pairwise (Before cmp) := by
  have sorted : (done ++ todo).Pairwise (Before cmp) := by
    rw [front.whole]
    exact pairwise_merged
  exact (pairwise_append.mp sorted).2.1

/-- One row of a merge: the first head is the next row of the merged order that is not gone. -/
theorem Front.step (sorted : Sorted cmp len runs)
    (skims : Skims len runs gone pos next) (picks : Picks cmp len runs next r) :
    ∃ skipped rest, todo = skipped ++ (r, next r) :: rest ∧ (∀ x ∈ skipped, gone x) ∧
      Front cmp len runs gone (update next r (next r + 1)) (done ++ skipped ++ [(r, next r)]) rest := by
  have unread : (r, next r) ∉ done := by
    intro mem
    have read := front.taken _ mem
    have le := skims.le r picks.run
    simp only at read
    omega
  have mem : (r, next r) ∈ todo := (front.mem.mpr ⟨picks.run, picks.bound⟩).resolve_left unread
  obtain ⟨skipped, rest, rfl⟩ := append_of_mem mem
  have passed : ∀ x ∈ skipped, x.2 < next x.1 := by
    intro x inside
    obtain ⟨run, bound⟩ := front.mem.mp (.inr (mem_append_left _ inside))
    have ahead := (pairwise_append.mp front.sorted).2.2 x inside _ mem_cons_self
    by_contra unread
    exact (picks.least sorted run bound (by omega) fun same => Before.irrefl _ (same ▸ ahead)).asymm ahead
  refine ⟨skipped, rest, rfl, fun x inside => ?_, ?_, fun other run => ?_, fun x inside => ?_, fun x inside read => ?_⟩
  · exact front.skimmed skims (mem_append_left _ inside) (passed x inside)
  · rw [← front.whole]
    simp
  · by_cases here : other = r
    · subst here
      rw [update_self]
      exact picks.bound
    · rw [update_of_ne here]
      exact skims.bound other run
  · have grown : ∀ s, next s ≤ update next r (next r + 1) s := by
      intro s
      by_cases here : s = r
      · subst here
        rw [update_self]
        omega
      · rw [update_of_ne here]
    simp only [append_assoc, mem_append, mem_singleton] at inside
    rcases inside with old | new | rfl
    · have run := (front.mem.mp (.inl old)).1
      exact lt_of_lt_of_le (lt_of_lt_of_le (front.taken x old) (skims.le x.1 run)) (grown x.1)
    · exact lt_of_lt_of_le (passed x new) (grown x.1)
    · simp
  · have apart : x ≠ (r, next r) := by
      intro same
      have ahead := (pairwise_cons.mp (pairwise_append.mp front.sorted).2.1).1 x inside
      exact Before.irrefl _ (same ▸ ahead)
    apply front.skimmed skims (mem_append_right _ (mem_cons_of_mem _ inside))
    by_cases here : x.1 = r
    · have other : x.2 ≠ next x.1 := fun eq => apart (Prod.ext here (by rw [eq, here]))
      rw [here, update_self] at read
      rw [here] at other ⊢
      omega
    · rwa [update_of_ne here] at read

omit front

/-- No row is gone while one before it is not, unless a row of its own run still stands between. -/
def Orderly (cmp : Spot → Spot → Ordering) (len : Nat → Nat) (runs : Nat) (gone : Spot → Prop) : Prop :=
  ∀ r k y, r < runs → k < len r → y.1 < runs → y.2 < len y.1 → gone (r, k) → ¬ gone y → Before cmp y (r, k) →
    ∃ j < k, ¬ gone (r, j) ∧ ¬ Before cmp (r, j) y

def Exact (pos : Nat → Nat) (todo : List Spot) : Prop := ∀ x ∈ todo, pos x.1 ≤ x.2

theorem Front.step_exact (front : Front cmp len runs gone pos done todo) (orderly : Orderly cmp len runs gone)
    (skims : Skims len runs gone pos next) (picks : Picks cmp len runs next r) {skipped rest : List Spot}
    (split : todo = skipped ++ (r, next r) :: rest) : Exact (update next r (next r + 1)) rest := by
  intro x inside
  obtain ⟨s, k⟩ := x
  have mem : (s, k) ∈ todo := by simp [split, inside]
  have picked : (r, next r) ∈ todo := by simp [split]
  obtain ⟨run, bound⟩ := front.mem.mp (.inr mem)
  have sorted := front.sorted
  rw [split] at sorted
  have ahead : Before cmp (r, next r) (s, k) := (pairwise_cons.mp (pairwise_append.mp sorted).2.1).1 _ inside
  have unread : next s ≤ k := by
    by_contra read
    have out : gone (s, k) := front.skimmed skims mem (Nat.lt_of_not_le read)
    obtain ⟨j, lt, kept, behind⟩ := orderly s k _ run bound picks.run picks.bound out
      (skims.head r picks.run picks.bound) ahead
    -- the row that stands between cannot have been passed
    have either : (s, j) ∈ done ∨ (s, j) ∈ todo := front.mem.mpr ⟨run, lt_trans lt bound⟩
    have later := either.resolve_left fun earlier => behind (front.apart earlier picked)
    have passed : j < next s := by omega
    exact kept (front.skimmed skims later passed)
  show update next r (next r + 1) s ≤ k
  by_cases here : s = r
  · subst here
    have apart : k ≠ next s := fun same => Before.irrefl _ (same ▸ ahead)
    rw [update_self]
    omega
  · rwa [update_of_ne here]

omit [Std.TransCmp cmp] in
/-- With nothing read beyond the front, as many rows are read as are behind it. -/
theorem Front.count (front : Front cmp len runs gone pos done todo) (exact_ : Exact pos todo) :
    ((range runs).map pos).sum = done.length := by
  rw [← length_spots]
  apply Perm.length_eq
  have distinct : (done ++ todo).Nodup := by
    rw [front.whole]
    exact nodup_merged
  apply (perm_ext_iff_of_nodup nodup_spots (nodup_append.mp distinct).1).mpr
  intro x
  rw [mem_spots]
  constructor
  · rintro ⟨run, read⟩
    apply (front.mem.mpr ⟨run, lt_of_lt_of_le read (front.bound x.1 run)⟩).resolve_right
    intro mem
    have unread := exact_ x mem
    omega
  · intro mem
    exact ⟨(front.mem.mp (.inl mem)).1, front.taken x mem⟩

end Front

variable [Std.TransCmp cmp]

theorem place_le (sorted : Sorted cmp len runs) {before after : List Spot}
    (split : merged cmp len runs = before ++ x :: after) : x.2 ≤ before.length := by
  have ordered : (before ++ x :: after).Pairwise (Before cmp) := split ▸ pairwise_merged
  have mem : x ∈ merged cmp len runs := by simp [split]
  obtain ⟨run, bound⟩ := mem_merged.mp mem
  have inside : (range x.2).map (fun k => (x.1, k)) ⊆ before := by
    intro y mem
    obtain ⟨k, lt, rfl⟩ := mem_map.mp mem
    have lt : k < x.2 := mem_range.mp lt
    have ahead : Before cmp (x.1, k) x := sorted.before run lt bound
    have there : (x.1, k) ∈ before ++ x :: after := split ▸ mem_merged.mpr ⟨run, lt_trans lt bound⟩
    rcases mem_append.mp there with found | found
    · exact found
    · rcases mem_cons.mp found with same | later
      · exact absurd (same ▸ ahead) (Before.irrefl _)
      · exact absurd ((pairwise_cons.mp (pairwise_append.mp ordered).2.1).1 _ later) ahead.asymm
  have distinct : ((range x.2).map fun k => (x.1, k)).Nodup :=
    nodup_range.map fun a b same => (Prod.mk.inj same).2
  simpa using (distinct.subperm inside).length_le

theorem merged_take (sorted : Sorted cmp len runs) (n : Nat) :
    (merged cmp (fun r => min (len r) n) runs).take n = (merged cmp len runs).take n := by
  have short : merged cmp (fun r => min (len r) n) runs = (merged cmp len runs).filter fun x => x.2 < n := by
    apply eq_of_sorted pairwise_merged (pairwise_merged.filter _)
    intro x
    simp only [mem_merged, mem_filter, decide_eq_true_eq]
    omega
  have kept : ((merged cmp len runs).take n).filter (fun x => x.2 < n) = (merged cmp len runs).take n := by
    apply filter_eq_self.mpr
    intro x mem
    obtain ⟨before, after, split⟩ := append_of_mem mem
    have bound : before.length < n := by
      have le := length_take_le n (merged cmp len runs)
      rw [split] at le
      simp only [length_append, length_cons] at le
      omega
    have whole : merged cmp len runs = before ++ x :: (after ++ (merged cmp len runs).drop n) := by
      rw [← cons_append, ← append_assoc, ← split, take_append_drop]
    have le := place_le sorted whole
    simp only [decide_eq_true_eq]
    omega
  rw [short]
  conv_lhs => rw [← take_append_drop n (merged cmp len runs), filter_append, kept]
  by_cases enough : n ≤ (merged cmp len runs).length
  · exact take_left' (length_take_of_le enough)
  · rw [drop_of_length_le (by omega)]
    simp

end Merge
