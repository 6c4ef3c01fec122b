import Goz.Index.EntryTable
import Goz.Index.NameIntegrity
import Goz.Library.Smallest

namespace Goz.NameStore

open List Option Function

variable {s : NameStore} {id a b : NameId}

section Model

variable (s : NameStore)

def orderAt (pos : Nat) : NameId := s.order.getD pos nilName

def firstLiveAt (first : Nat) : Option Nat :=
  (range' first (s.order.length - first)).find? fun pos => s.refcount (s.orderAt pos) > 0

def bisect (x : Bytes) : Nat → Nat → Nat → Nat
  | 0, lo, _ => lo
  | fuel + 1, lo, hi =>
    if lo < hi then
      let mid := lo + (hi - lo) / 2
      match (s.firstLiveAt mid).filter (· < hi) with
      | none => bisect x fuel lo mid
      | some pos => if s.foldedBytesOf (s.orderAt pos) < x then bisect x fuel (pos + 1) hi else bisect x fuel lo mid
    else lo

/-- A position before which every live id folds below `x`, and from which on at or above it. -/
def insertionPoint (x : Bytes) : Nat := s.bisect x s.order.length 0 s.order.length

/-- The integer a name is ordered by: odd for a ranked one, and for one that waits that of its equals
    or an even one between its neighbours. -/
def rankKey (id : NameId) : Nat :=
  match s.rankOf id with
  | some rank => 2 * rank + 1
  | none =>
    let x := s.foldedBytesOf id
    let point := s.insertionPoint x
    match s.firstLiveAt point with
    | some pos =>
      if s.foldedBytesOf (s.orderAt pos) = x then 2 * (s.rankOf (s.orderAt pos)).getD 0xFFFFFFFF + 1 else 2 * point
    | none => 2 * point

end Model

theorem keyLe_iff : s.keyLe a b = true ↔
    s.foldedBytesOf a < s.foldedBytesOf b ∨ s.foldedBytesOf a = s.foldedBytesOf b ∧ a ≤ b := by
  rw [keyLe, decide_eq_true_iff]

theorem keyLe_linear (s : NameStore) : Smallest.Linear s.keyLe := by
  constructor
  · intro a b c
    simp only [keyLe_iff]
    rintro (ab | ⟨ab, le⟩) (bc | ⟨bc, le'⟩)
    · exact .inl (Std.lt_trans ab bc)
    · exact .inl (bc ▸ ab)
    · exact .inl (ab ▸ bc)
    · exact .inr ⟨ab.trans bc, le.trans le'⟩
  · intro a b
    rw [Bool.or_eq_true, keyLe_iff, keyLe_iff]
    rcases Std.lt_trichotomy (s.foldedBytesOf a) (s.foldedBytesOf b) with lt | same | gt
    · exact .inl (.inl lt)
    · rcases Nat.le_total a b with le | ge
      · exact .inl (.inr ⟨same, le⟩)
      · exact .inr (.inr ⟨same.symm, ge⟩)
    · exact .inr (.inl gt)
  · intro a b
    simp only [keyLe_iff]
    rintro (ab | ⟨ab, le⟩) (ba | ⟨ba, ge⟩)
    · exact absurd (Std.lt_trans ab ba) Std.lt_irrefl
    · exact absurd (ba ▸ ab) Std.lt_irrefl
    · exact absurd (ab ▸ ba) Std.lt_irrefl
    · exact Nat.le_antisymm le ge

theorem not_lt_of_keyLe (le : s.keyLe a b = true) : ¬ s.foldedBytesOf b < s.foldedBytesOf a := by
  intro lt
  rcases keyLe_iff.mp le with gt | ⟨same, -⟩
  · exact Std.lt_irrefl (Std.lt_trans gt lt)
  · rw [same] at lt
    exact Std.lt_irrefl lt

section Ordered

/-- Every live name is in the order or waits. The order sorts its live names, and their ranks agree with it even where
    others have died since: a rank is no further than the name, equal names share it, and it is past every
    smaller name. -/
structure Ordered (s : NameStore) : Prop where
  nodup : (s.order ++ s.unranked).Nodup
  below : ∀ id ∈ s.order ++ s.unranked, id < s.ids
  cover : ∀ id, s.Live id → id ∈ s.order ++ s.unranked
  sorted : s.order.Pairwise fun a b => s.Live a → s.Live b → s.keyLe a b = true
  ranked : ∀ pos id, s.order[pos]? = some id → s.Live id → ∃ rank, s.rankOf id = some rank ∧ rank ≤ pos
  same : ∀ a b, a ∈ s.order → b ∈ s.order → s.Live a → s.Live b → s.foldedBytesOf a = s.foldedBytesOf b →
    s.rankOf a = s.rankOf b
  past : ∀ pos a b rank, s.order[pos]? = some a → b ∈ s.order → s.Live a → s.Live b →
    s.foldedBytesOf a < s.foldedBytesOf b → s.rankOf b = some rank → pos < rank
  waiting : ∀ id ∈ s.unranked, s.rankOf id = none

variable {s' : NameStore}

theorem ordered_new : Ordered new := by
  constructor <;> simp [new, Live]

variable (ordered : s.Ordered)
include ordered

theorem Ordered.thin (order : s'.order = s.order) (unranked : s'.unranked = s.unranked)
    (rankOf : s'.rankOf = s.rankOf) (ids : s'.ids = s.ids) (live : ∀ id, s'.Live id → s.Live id)
    (bytes : ∀ id, s'.Live id → s'.foldedBytesOf id = s.foldedBytesOf id) : s'.Ordered := by
  constructor
  · rw [order, unranked]
    exact ordered.nodup
  · rw [order, unranked, ids]
    exact ordered.below
  · rw [order, unranked]
    exact fun id alive => ordered.cover id (live id alive)
  · rw [order]
    apply ordered.sorted.imp
    intro a b le aliveA aliveB
    have known := keyLe_iff.mp (le (live a aliveA) (live b aliveB))
    rwa [keyLe_iff, bytes a aliveA, bytes b aliveB]
  · rw [order, rankOf]
    exact fun pos id at_ alive => ordered.ranked pos id at_ (live id alive)
  · rw [order, rankOf]
    intro a b memberA memberB aliveA aliveB eq
    rw [bytes a aliveA, bytes b aliveB] at eq
    exact ordered.same a b memberA memberB (live a aliveA) (live b aliveB) eq
  · rw [order, rankOf]
    intro pos a b rank at_ mem aliveA aliveB lt
    rw [bytes a aliveA, bytes b aliveB] at lt
    exact ordered.past pos a b rank at_ mem (live a aliveA) (live b aliveB) lt
  · rw [unranked, rankOf]
    exact ordered.waiting

theorem Ordered.internNew [Externals] (wf : s.Wf) {name : Bytes}
    (fresh : ∀ id, s.Live id → s.rawBytes id ≠ name) : (s.internNew name).Ordered := by
  have interned := wf.internNew fresh
  have old : ∀ id, id ≠ s.ids → (s.internNew name).Live id → s.Live id := by
    intro id ne alive
    rw [Live, interned.refcount, update_of_ne ne] at alive
    exact alive
  have bytes : ∀ id, s.Live id → (s.internNew name).foldedBytesOf id = s.foldedBytesOf id := fun id alive =>
    (interned.same id alive).2
  have notNew : ∀ id ∈ s.order ++ s.unranked, id ≠ s.ids := fun id mem => Nat.ne_of_lt (ordered.below id mem)
  have inOrder : ∀ id ∈ s.order, id ≠ s.ids := fun id mem => notNew id (mem_append_left _ mem)
  have rankOf : ∀ id, id ≠ s.ids → (s.internNew name).rankOf id = s.rankOf id := fun id ne => update_of_ne ne _ _
  have unranked : (s.internNew name).order ++ (s.internNew name).unranked = (s.order ++ s.unranked) ++ [s.ids] :=
    (append_assoc _ _ _).symm
  constructor
  · rw [unranked]
    refine nodup_append'.mpr ⟨ordered.nodup, nodup_singleton _, ?_⟩
    intro id mem new
    exact notNew id mem (mem_singleton.mp new)
  · rw [unranked]
    intro id mem
    rcases mem_append.mp mem with mem | new
    · exact Nat.lt_succ_of_lt (ordered.below id mem)
    · rw [mem_singleton.mp new]
      exact Nat.lt_succ_self _
  · rw [unranked]
    intro id alive
    by_cases new : id = s.ids
    · exact mem_append_right _ (mem_singleton.mpr new)
    · exact mem_append_left _ (ordered.cover id (old id new alive))
  · show s.order.Pairwise _
    refine Pairwise.imp_of_mem ?_ ordered.sorted
    intro a b memberA memberB le aliveA aliveB
    have aliveA := old a (inOrder a memberA) aliveA
    have aliveB := old b (inOrder b memberB) aliveB
    have known := keyLe_iff.mp (le aliveA aliveB)
    rwa [keyLe_iff, bytes a aliveA, bytes b aliveB]
  · intro pos id at_ alive
    have ne := inOrder id (mem_of_getElem? at_)
    rw [rankOf id ne]
    exact ordered.ranked pos id at_ (old id ne alive)
  · intro a b memberA memberB aliveA aliveB eq
    have aliveA := old a (inOrder a memberA) aliveA
    have aliveB := old b (inOrder b memberB) aliveB
    rw [bytes a aliveA, bytes b aliveB] at eq
    rw [rankOf a (inOrder a memberA), rankOf b (inOrder b memberB)]
    exact ordered.same a b memberA memberB aliveA aliveB eq
  · intro pos a b rank at_ mem aliveA aliveB lt
    have aliveA := old a (inOrder a (mem_of_getElem? at_)) aliveA
    have aliveB := old b (inOrder b mem) aliveB
    rw [bytes a aliveA, bytes b aliveB] at lt
    rw [rankOf b (inOrder b mem)]
    exact ordered.past pos a b rank at_ mem aliveA aliveB lt
  · intro id mem
    rcases mem_append.mp mem with mem | new
    · rw [rankOf id (notNew id (mem_append_right _ mem))]
      exact ordered.waiting id mem
    · rw [mem_singleton.mp new]
      exact update_self _ _ _

theorem Ordered.intern [Externals] (wf : s.Wf) (name : Bytes) : (s.intern name).1.Ordered := by
  unfold NameStore.intern
  split
  case h_1 id found =>
    have live : s.Live id := (wf.interned id).mp (mem_of_find?_eq_some found)
    refine ordered.thin rfl rfl rfl rfl (fun other alive => ?_) fun _ _ => rfl
    by_cases same : other = id
    · rwa [same]
    · simpa [Live, update_of_ne same] using alive
  case h_2 missing =>
    refine ordered.internNew wf fun id live => ?_
    simpa using find?_eq_none.mp missing id ((wf.interned id).mpr live)

theorem Ordered.release [Externals] (wf : s.Wf) (live : s.Live id) : (s.release id).Ordered := by
  have released := wf.release id live
  have frame : (s.release id).order = s.order ∧ (s.release id).unranked = s.unranked ∧ (s.release id).rankOf = s.rankOf ∧
      (s.release id).ids = s.ids := by
    unfold NameStore.release
    split <;> exact ⟨rfl, rfl, rfl, rfl⟩
  refine ordered.thin frame.1 frame.2.1 frame.2.2.1 frame.2.2.2 (fun other alive => ?_) fun other alive =>
    (released.same other alive).2
  rw [Live, released.refcount] at alive
  by_cases same : other = id
  · rwa [same]
  · rwa [update_of_ne same] at alive

end Ordered

def groupAt (s : NameStore) (folded : Bytes) : Nat :=
  s.order.findIdx fun id => decide (s.Live id) && decide (s.foldedBytesOf id = folded)

theorem rerankFrom_eq (sorted : s.order.Pairwise fun a b => s.Live a → s.Live b → s.keyLe a b = true)
    {done rest : List NameId} (split : s.order = done ++ rest) {groupStart : Nat} {prevLive : Option Bytes}
    {ranks : NameId → Option Nat}
    (prior : ∀ id ∈ done, s.Live id → ∃ f, prevLive = some f ∧ ¬ f < s.foldedBytesOf id)
    (group : ∀ f, prevLive = some f → groupStart = s.groupAt f ∧ ∃ id ∈ done, s.Live id ∧ s.foldedBytesOf id = f)
    (ranked : ∀ id, ranks id = if id ∈ done ∧ s.Live id then some (s.groupAt (s.foldedBytesOf id)) else none) (id : NameId) :
    s.rerankFrom rest done.length groupStart prevLive ranks id =
      if id ∈ s.order ∧ s.Live id then some (s.groupAt (s.foldedBytesOf id)) else none := by
  induction rest generalizing done groupStart prevLive ranks with
  | nil =>
    rw [append_nil] at split
    rw [rerankFrom, ranked, split]
  | cons next rest ih =>
    have split' : s.order = (done ++ [next]) ++ rest := by rw [split, append_assoc, singleton_append]
    have length : (done ++ [next]).length = done.length + 1 := by simp
    rw [rerankFrom, ← length]
    by_cases dead : s.refcount next = 0
    · rw [if_pos dead]
      have notLive : ¬ s.Live next := by simp [Live, dead]
      refine ih split' (fun id mem alive => ?_) (fun f at_ => ?_) fun id => ?_
      · rcases mem_append.mp mem with mem | here
        · exact prior id mem alive
        · exact absurd (mem_singleton.mp here ▸ alive) notLive
      · obtain ⟨start, id, mem, held⟩ := group f at_
        exact ⟨start, id, mem_append_left _ mem, held⟩
      · rw [ranked]
        by_cases same : id = next
        · simp [same, notLive]
        · simp [same]
    · rw [if_neg dead]
      have live : s.Live next := Nat.pos_of_ne_zero dead
      -- the live names before `next` are at or below it
      have order : ∀ id ∈ done, s.Live id → s.keyLe id next = true := by
        intro id mem alive
        rw [split, pairwise_append] at sorted
        exact sorted.2.2 id mem next mem_cons_self alive live
      have atMost : ∀ id ∈ done ++ [next], s.Live id → ¬ s.foldedBytesOf next < s.foldedBytesOf id := by
        intro id mem alive
        rcases mem_append.mp mem with mem | here
        · exact not_lt_of_keyLe (order id mem alive)
        · rw [mem_singleton.mp here]
          exact Std.lt_irrefl
      have own {start : Nat} (at_ : start = s.groupAt (s.foldedBytesOf next)) (id : NameId) :
          update ranks next (some start) id =
            if id ∈ done ++ [next] ∧ s.Live id then some (s.groupAt (s.foldedBytesOf id)) else none := by
        by_cases same : id = next
        · rw [same, update_self, at_]
          simp [live]
        · rw [update_of_ne same, ranked]
          simp [same]
      split
      case isTrue held =>
        refine ih split' (fun id mem alive => ⟨_, held, atMost id mem alive⟩) (fun f at_ => ?_)
          (own (group _ held).1)
        obtain ⟨start, id, mem, known⟩ := group f at_
        exact ⟨start, id, mem_append_left _ mem, known⟩
      case isFalse other =>
        have start : done.length = s.groupAt (s.foldedBytesOf next) := by
          have inside : done.length < s.order.length := by rw [split]; simp
          symm
          rw [groupAt, findIdx_eq inside]
          refine ⟨by simp [split, live], fun j lt => ?_⟩
          have mem : s.order[j] ∈ done := by
            have at_ : s.order[j] = done[j] := by simp [split, getElem_append_left lt]
            rw [at_]
            exact getElem_mem lt
          by_contra held
          simp only [Bool.not_eq_false, Bool.and_eq_true, decide_eq_true_eq] at held
          obtain ⟨f, prev, notBelow⟩ := prior _ mem held.1
          obtain ⟨-, last, lastIn, lastLive, lastFold⟩ := group f prev
          rw [held.2] at notBelow
          rcases keyLe_iff.mp (order last lastIn lastLive) with lt | ⟨same, -⟩
          · rw [lastFold] at lt
            exact notBelow lt
          · rw [lastFold] at same
            rw [prev, same] at other
            exact other rfl
        refine ih split' (fun id mem alive => ⟨_, rfl, atMost id mem alive⟩) (fun f at_ => ?_) (own start)
        obtain rfl := some.inj at_
        exact ⟨start, next, mem_append_right _ (mem_singleton_self _), live, rfl⟩

theorem ordered_rerank (nodup : (s.order ++ s.unranked).Nodup) (below : ∀ id ∈ s.order ++ s.unranked, id < s.ids)
    (cover : ∀ id, s.Live id → id ∈ s.order ++ s.unranked)
    (sorted : s.order.Pairwise fun a b => s.Live a → s.Live b → s.keyLe a b = true) : s.rerank.Ordered := by
  have rank : ∀ id, s.rerank.rankOf id =
      if id ∈ s.order ∧ s.Live id then some (s.groupAt (s.foldedBytesOf id)) else none := fun id =>
    have start : s.order = [] ++ s.order := rfl
    rerankFrom_eq sorted start (by simp) (by simp) (by simp) id
  have starts {id : NameId} (mem : id ∈ s.order) (alive : s.Live id) :
      ∃ inside : s.groupAt (s.foldedBytesOf id) < s.order.length,
        s.Live s.order[s.groupAt (s.foldedBytesOf id)] ∧
          s.foldedBytesOf s.order[s.groupAt (s.foldedBytesOf id)] = s.foldedBytesOf id := by
    have inside : s.groupAt (s.foldedBytesOf id) < s.order.length :=
      findIdx_lt_length_of_exists ⟨id, mem, by simp [alive]⟩
    have held := findIdx_getElem (w := inside)
    simp only [Bool.and_eq_true, decide_eq_true_eq] at held
    exact ⟨inside, held⟩
  refine ⟨nodup, below, cover, sorted, fun pos id at_ alive => ?_, fun a b memberA memberB aliveA aliveB eq => ?_,
    fun pos a b rank_ at_ mem aliveA aliveB lt ranked => ?_, fun id mem => ?_⟩
  · obtain ⟨inside, rfl⟩ := List.getElem?_eq_some_iff.mp at_
    refine ⟨_, (rank _).trans (if_pos ⟨getElem_mem inside, alive⟩), ?_⟩
    by_contra later
    have missed := not_of_lt_findIdx (Nat.lt_of_not_le later)
    simp only [Bool.and_eq_false_iff, decide_eq_false_iff_not] at missed
    rcases missed with dead | other
    · exact dead alive
    · exact other rfl
  · rw [rank, rank, if_pos ⟨memberA, aliveA⟩, if_pos ⟨memberB, aliveB⟩]
    exact congrArg (fun f => some (s.groupAt f)) eq
  · rw [rank, if_pos ⟨mem, aliveB⟩] at ranked
    obtain rfl := some.inj ranked
    obtain ⟨inside, startLive, startFold⟩ := starts mem aliveB
    obtain ⟨inside', rfl⟩ := List.getElem?_eq_some_iff.mp at_
    have lt : s.foldedBytesOf s.order[pos] < s.foldedBytesOf b := lt
    rw [← startFold] at lt
    rcases Nat.lt_trichotomy pos (s.groupAt (s.foldedBytesOf b)) with before | here | after
    · exact before
    · simp only [← here] at lt
      exact absurd lt Std.lt_irrefl
    · have le := pairwise_iff_getElem.mp sorted _ _ inside inside' after startLive aliveA
      exact absurd lt (not_lt_of_keyLe le)
  · rw [rank, if_neg]
    rintro ⟨inOrder, -⟩
    exact (nodup_append'.mp nodup).2.2 inOrder mem

theorem ordered_buildOrder [Externals] (wf : s.Wf) : s.buildOrder.Ordered := by
  have perm := mergeSort_perm ((range s.ids).filter fun id => s.refcount id > 0) s.keyLe
  have mem : ∀ id, id ∈ ((range s.ids).filter fun id => s.refcount id > 0).mergeSort s.keyLe ↔ id < s.ids ∧ s.Live id := by
    intro id
    rw [perm.mem_iff]
    simp [Live]
  apply ordered_rerank
  · rw [append_nil]
    exact perm.nodup_iff.mpr (nodup_range.filter _)
  · intro id member
    rw [append_nil] at member
    exact ((mem id).mp member).1
  · intro id alive
    rw [append_nil]
    exact (mem id).mpr ⟨wf.live_lt id alive, alive⟩
  · exact ((keyLe_linear s).sorted _).imp fun le _ _ => le

/-- The live ids in the order and those that wait are all live ids, each once. -/
theorem Ordered.live_perm [Externals] (ordered : s.Ordered) (wf : s.Wf) :
    ((s.order ++ s.unranked).filter fun id => s.refcount id > 0).Perm ((range s.ids).filter fun id => s.refcount id > 0) := by
  rw [perm_ext_iff_of_nodup (ordered.nodup.filter _) (nodup_range.filter _)]
  intro id
  simp only [mem_filter, decide_eq_true_eq, and_congr_left_iff]
  intro alive
  exact iff_of_true (ordered.cover id alive) (mem_range.mpr (wf.live_lt id alive))

theorem Ordered.live_sorted (ordered : s.Ordered) :
    (s.order.filter fun id => s.refcount id > 0).Pairwise fun a b => s.keyLe a b = true := by
  rw [pairwise_filter]
  refine ordered.sorted.imp fun le aliveA aliveB => le ?_ ?_
  · simpa [Live] using aliveA
  · simpa [Live] using aliveB

theorem Ordered.mergeUnranked_eq [Externals] (ordered : s.Ordered) (wf : s.Wf) : s.mergeUnranked = s.buildOrder := by
  unfold mergeUnranked
  split
  · rfl
  have linear := keyLe_linear s
  have merges : (fun o n => !(s.keyLe n o && !s.keyLe o n)) = s.keyLe := by
    funext o n
    have total := linear.total o n
    cases first : s.keyLe o n with
    | true => simp
    | false => simpa [first] using total
  have sorts : merge (s.order.filter fun id => s.refcount id > 0)
      ((s.unranked.filter fun id => s.refcount id > 0).mergeSort s.keyLe) s.keyLe =
        ((range s.ids).filter fun id => s.refcount id > 0).mergeSort s.keyLe := by
    rw [linear.merge_eq_sort ordered.live_sorted (linear.sorted _)]
    apply linear.sort_congr
    apply ((Perm.refl _).append (mergeSort_perm _ _)).trans
    rw [← filter_append]
    exact ordered.live_perm wf
  dsimp only
  rw [merges, sorts, buildOrder]

theorem Ordered.mergeUnranked [Externals] (ordered : s.Ordered) (wf : s.Wf) : s.mergeUnranked.Ordered := by
  rw [ordered.mergeUnranked_eq wf]
  exact ordered_buildOrder wf

theorem Copied.remap_mono {n : Nat} {c : CompactedNames} (copied : Copied s n c) {a' b' : NameId}
    (atA : c.remap a = some a') (atB : c.remap b = some b') (le : a ≤ b) : a' ≤ b' := by
  have sorted : (s.keptBelow n).Pairwise (· < ·) := pairwise_lt_range.filter _
  obtain ⟨insideA, rfl⟩ := List.getElem?_eq_some_iff.mp ((copied.remap a a').mp atA)
  obtain ⟨insideB, rfl⟩ := List.getElem?_eq_some_iff.mp ((copied.remap b b').mp atB)
  by_contra later
  have lt := pairwise_iff_getElem.mp sorted b' a' insideB insideA (Nat.lt_of_not_le later)
  exact absurd lt (Nat.not_lt_of_le le)

theorem Ordered.installCompacted [Externals] (ordered : s.Ordered) (wf : s.Wf) :
    (s.installCompacted s.planCompact).Ordered := by
  have copied := wf.copied
  have renumbered := wf.installCompacted
  set c := s.planCompact
  have joined : s.order.filterMap c.remap ++ s.unranked.filterMap c.remap = (s.order ++ s.unranked).filterMap c.remap :=
    filterMap_append.symm
  apply ordered_rerank
  · rw [joined]
    exact Nodup.filterMap (fun a b new atA atB => renumbered.inj a b new atA atB) ordered.nodup
  · rw [joined]
    intro new mem
    obtain ⟨id, -, at_⟩ := mem_filterMap.mp mem
    show new < c.pairs.length
    rw [copied.length]
    exact (List.getElem?_eq_some_iff.mp ((copied.remap id new).mp at_)).1
  · rw [joined]
    intro new alive
    obtain ⟨id, at_⟩ := renumbered.onto new alive
    exact mem_filterMap.mpr ⟨id, ordered.cover id ((renumbered.live id).mp ⟨new, at_⟩), at_⟩
  · show (s.order.filterMap c.remap).Pairwise _
    rw [pairwise_filterMap]
    refine ordered.sorted.imp fun {a b} le a' atA b' atB _ _ => ?_
    have known := keyLe_iff.mp (le ((renumbered.live a).mp ⟨a', atA⟩) ((renumbered.live b).mp ⟨b', atB⟩))
    rw [keyLe_iff]
    have foldA := (renumbered.moved a a' atA).2.1
    have foldB := (renumbered.moved b b' atB).2.1
    rcases known with lt | ⟨same, ids⟩
    · exact .inl (by rw [← foldA, ← foldB] at lt; exact lt)
    · exact .inr ⟨by rw [← foldA, ← foldB] at same; exact same, copied.remap_mono atA atB ids⟩

section Point

variable {x : Bytes} {pos first : Nat}

theorem orderAt_eq (at_ : s.order[pos]? = some id) : s.orderAt pos = id := by
  simp [orderAt, getD_eq_getElem?_getD, at_]

theorem firstLiveAt_some (found : s.firstLiveAt first = some pos) :
    ∃ id, s.order[pos]? = some id ∧ s.Live id ∧ first ≤ pos ∧
      ∀ j other, first ≤ j → j < pos → s.order[j]? = some other → ¬ s.Live other := by
  rw [firstLiveAt, find?_range'_eq_some] at found
  obtain ⟨live, mem, before⟩ := found
  rw [mem_range'_1] at mem
  have inside : pos < s.order.length := by omega
  have at_ := getElem?_eq_getElem inside
  rw [orderAt_eq at_] at live
  refine ⟨_, at_, by simpa [Live] using live, mem.1, fun j other le lt there => ?_⟩
  have dead := before j le lt
  rw [orderAt_eq there] at dead
  simpa [Live] using dead

theorem firstLiveAt_none (none_ : s.firstLiveAt first = none) {j : Nat} (le : first ≤ j)
    (at_ : s.order[j]? = some id) : ¬ s.Live id := by
  rw [firstLiveAt, List.find?_range'_eq_none] at none_
  have inside := (List.getElem?_eq_some_iff.mp at_).1
  have dead := none_ j le (by omega)
  rw [orderAt_eq at_] at dead
  simpa [Live] using dead

/-- Everything live before `lo` is below `x`, and `lo` is no further than that; nothing live from `hi` on is. -/
structure Bracket (s : NameStore) (x : Bytes) (lo hi : Nat) : Prop where
  le : lo ≤ hi
  reached : lo = 0 ∨ ∃ pos id, lo = pos + 1 ∧ s.order[pos]? = some id ∧ s.Live id ∧ s.foldedBytesOf id < x
  beyond : ∀ pos id, hi ≤ pos → s.order[pos]? = some id → s.Live id → ¬ s.foldedBytesOf id < x

variable (ordered : s.Ordered)
include ordered

theorem Ordered.position_le {p q : Nat} (atA : s.order[p]? = some a)
    (atB : s.order[q]? = some b) (aliveA : s.Live a) (aliveB : s.Live b) (le : p ≤ q) :
    ¬ s.foldedBytesOf b < s.foldedBytesOf a := by
  obtain ⟨insideA, rfl⟩ := List.getElem?_eq_some_iff.mp atA
  obtain ⟨insideB, rfl⟩ := List.getElem?_eq_some_iff.mp atB
  rcases Nat.lt_or_eq_of_le le with lt | rfl
  · exact not_lt_of_keyLe (pairwise_iff_getElem.mp ordered.sorted p q insideA insideB lt aliveA aliveB)
  · exact Std.lt_irrefl

theorem Ordered.bisect {fuel lo hi : Nat} (enough : hi - lo ≤ fuel) (bracket : Bracket s x lo hi) :
    Bracket s x (s.bisect x fuel lo hi) (s.bisect x fuel lo hi) := by
  induction fuel generalizing lo hi with
  | zero =>
    have same : hi = lo := by
      have := bracket.le
      omega
    subst same
    exact bracket
  | succ fuel ih =>
    unfold NameStore.bisect
    split
    case isFalse done =>
      have same : hi = lo := by
        have := bracket.le
        omega
      subst same
      exact bracket
    case isTrue lt =>
      have mid : lo ≤ lo + (hi - lo) / 2 ∧ lo + (hi - lo) / 2 < hi := by omega
      dsimp only
      generalize lo + (hi - lo) / 2 = middle at mid
      split
      case h_1 none_ =>
        -- nothing live between the middle and `hi`
        apply ih (by omega)
        refine ⟨mid.1, bracket.reached, fun pos id le at_ alive => ?_⟩
        rcases Nat.lt_or_ge pos hi with inside | outside
        · exfalso
          cases found : s.firstLiveAt middle with
          | none => exact firstLiveAt_none found le at_ alive
          | some p =>
            obtain ⟨first, atFirst, firstLive, -, before⟩ := firstLiveAt_some found
            rw [found, filter_some] at none_
            split at none_
            · cases none_
            case isFalse past =>
              have past : ¬ p < hi := by simpa using past
              exact before pos id le (by omega) at_ alive
        · exact bracket.beyond pos id outside at_ alive
      case h_2 p found =>
        rw [filter_eq_some_iff] at found
        obtain ⟨found, inside⟩ := found
        have inside : p < hi := by simpa using inside
        obtain ⟨first, atFirst, firstLive, from_, before⟩ := firstLiveAt_some found
        rw [orderAt_eq atFirst]
        split
        case isTrue below =>
          exact ih (by omega) ⟨inside, .inr ⟨p, first, rfl, atFirst, firstLive, below⟩, bracket.beyond⟩
        case isFalse notBelow =>
          apply ih (by omega)
          refine ⟨mid.1, bracket.reached, fun pos id le at_ alive => ?_⟩
          rcases Nat.lt_or_ge pos p with ahead | behind
          · exact absurd alive (before pos id le ahead at_)
          · intro below
            have notLt := ordered.position_le atFirst at_ firstLive alive behind
            rcases Std.lt_trichotomy (s.foldedBytesOf first) (s.foldedBytesOf id) with lt | same | gt
            · exact notBelow (Std.lt_trans lt below)
            · exact notBelow (same ▸ below)
            · exact notLt gt

theorem Ordered.insertionPoint (x : Bytes) : Bracket s x (s.insertionPoint x) (s.insertionPoint x) := by
  refine ordered.bisect (by omega) ⟨Nat.zero_le _, .inl rfl, fun pos id le at_ => ?_⟩
  have inside := (List.getElem?_eq_some_iff.mp at_).1
  omega

theorem Ordered.insertionPoint_le (at_ : s.order[pos]? = some id)
    (alive : s.Live id) (notBelow : ¬ s.foldedBytesOf id < x) : s.insertionPoint x ≤ pos := by
  rcases (ordered.insertionPoint x).reached with zero | ⟨last, lastId, point, atLast, lastLive, below⟩
  · omega
  · by_contra ahead
    have notLt := ordered.position_le at_ atLast alive lastLive (by omega)
    rcases Std.lt_trichotomy (s.foldedBytesOf id) (s.foldedBytesOf lastId) with lt | same | gt
    · exact notBelow (Std.lt_trans lt below)
    · exact notBelow (same ▸ below)
    · exact notLt gt

theorem Ordered.lt_insertionPoint (at_ : s.order[pos]? = some id)
    (alive : s.Live id) (below : s.foldedBytesOf id < x) : pos < s.insertionPoint x := by
  by_contra past
  exact (ordered.insertionPoint x).beyond pos id (by omega) at_ alive below

end Point

/-- What the key of a name that folds to `x` says: the rank of its equals in the order, or where it would go. -/
inductive Keyed (s : NameStore) (x : Bytes) (key : Nat) : Prop
  | rank (pos : Nat) (id : NameId) (rank : Nat) (at_ : s.order[pos]? = some id) (live : s.Live id)
      (same : s.foldedBytesOf id = x) (ranked : s.rankOf id = some rank) (eq : key = 2 * rank + 1)
  | point (fresh : ∀ id ∈ s.order, s.Live id → s.foldedBytesOf id ≠ x) (eq : key = 2 * s.insertionPoint x)

theorem Ordered.keyed (ordered : s.Ordered) (live : s.Live id) : Keyed s (s.foldedBytesOf id) (s.rankKey id) := by
  rcases mem_append.mp (ordered.cover id live) with mem | waits
  · obtain ⟨pos, inside, rfl⟩ := getElem_of_mem mem
    have at_ := getElem?_eq_getElem inside
    obtain ⟨rank, ranked, -⟩ := ordered.ranked pos _ at_ live
    refine .rank pos _ rank at_ live rfl ranked ?_
    rw [rankKey, ranked]
  · rw [rankKey, ordered.waiting id waits]
    dsimp only
    -- the first live name from the point on is the least one not below
    have least {p : Nat} {first : NameId} (found : s.firstLiveAt (s.insertionPoint (s.foldedBytesOf id)) = some p)
        (atFirst : s.order[p]? = some first) (firstLive : s.Live first) {other : NameId} (inOrder : other ∈ s.order)
        (otherLive : s.Live other) (same : s.foldedBytesOf other = s.foldedBytesOf id) :
        s.foldedBytesOf first = s.foldedBytesOf id := by
      obtain ⟨first', atFirst', -, from_, before⟩ := firstLiveAt_some found
      obtain ⟨q, insideQ, rfl⟩ := getElem_of_mem inOrder
      have atQ := getElem?_eq_getElem insideQ
      have pointLe : s.insertionPoint (s.foldedBytesOf id) ≤ q :=
        ordered.insertionPoint_le atQ otherLive (by rw [same]; exact Std.lt_irrefl)
      have le : p ≤ q := by
        by_contra ahead
        exact before q _ pointLe (by omega) atQ otherLive
      have notAbove := ordered.position_le atFirst atQ firstLive otherLive le
      have notBelow := (ordered.insertionPoint _).beyond p first from_ atFirst firstLive
      rw [same] at notAbove
      rcases Std.lt_trichotomy (s.foldedBytesOf first) (s.foldedBytesOf id) with lt | eq | gt
      · exact absurd lt notBelow
      · exact eq
      · exact absurd gt notAbove
    cases found : s.firstLiveAt (s.insertionPoint (s.foldedBytesOf id)) with
    | none =>
      refine .point (fun other inOrder otherLive same => ?_) rfl
      obtain ⟨q, insideQ, rfl⟩ := getElem_of_mem inOrder
      have atQ := getElem?_eq_getElem insideQ
      exact firstLiveAt_none found (ordered.insertionPoint_le atQ otherLive (by rw [same]; exact Std.lt_irrefl)) atQ otherLive
    | some p =>
      obtain ⟨first, atFirst, firstLive, -, -⟩ := firstLiveAt_some found
      dsimp only
      rw [orderAt_eq atFirst]
      split
      case isTrue same =>
        obtain ⟨rank, ranked, -⟩ := ordered.ranked p first atFirst firstLive
        exact .rank p first rank atFirst firstLive same ranked (by rw [ranked]; rfl)
      case isFalse other =>
        exact .point (fun id' inOrder alive same => other (least found atFirst firstLive inOrder alive same)) rfl

theorem Ordered.rankKey_eq (ordered : s.Ordered) (liveA : s.Live a) (liveB : s.Live b)
    (same : s.foldedBytesOf a = s.foldedBytesOf b) : s.rankKey a = s.rankKey b := by
  have keyedB := ordered.keyed liveB
  rw [← same] at keyedB
  rcases ordered.keyed liveA with ⟨p, idA, rankA, atA, aliveA, foldA, rankedA, eqA⟩ | ⟨freshA, eqA⟩ <;>
    rcases keyedB with ⟨q, idB, rankB, atB, aliveB, foldB, rankedB, eqB⟩ | ⟨freshB, eqB⟩
  · have ranks := ordered.same idA idB (mem_of_getElem? atA) (mem_of_getElem? atB) aliveA aliveB
      (foldA.trans foldB.symm)
    rw [rankedA, rankedB] at ranks
    rw [eqA, eqB, some.inj ranks]
  · exact absurd foldA (freshB idA (mem_of_getElem? atA) aliveA)
  · exact absurd foldB (freshA idB (mem_of_getElem? atB) aliveB)
  · rw [eqA, eqB]

theorem Ordered.rankKey_le (ordered : s.Ordered) (liveA : s.Live a) (liveB : s.Live b)
    (lt : s.foldedBytesOf a < s.foldedBytesOf b) : s.rankKey a ≤ s.rankKey b := by
  have bracketA := ordered.insertionPoint (s.foldedBytesOf a)
  rcases ordered.keyed liveA with ⟨p, idA, rankA, atA, aliveA, foldA, rankedA, eqA⟩ | ⟨freshA, eqA⟩ <;>
    rcases ordered.keyed liveB with ⟨q, idB, rankB, atB, aliveB, foldB, rankedB, eqB⟩ | ⟨freshB, eqB⟩
  · have past := ordered.past p idA idB rankB atA (mem_of_getElem? atB) aliveA aliveB (by rwa [foldA, foldB]) rankedB
    obtain ⟨rank, ranked, le⟩ := ordered.ranked p idA atA aliveA
    rw [rankedA] at ranked
    obtain rfl := some.inj ranked
    omega
  · have inside := ordered.lt_insertionPoint atA aliveA (foldA ▸ lt)
    obtain ⟨rank, ranked, le⟩ := ordered.ranked p idA atA aliveA
    rw [rankedA] at ranked
    obtain rfl := some.inj ranked
    omega
  · rcases bracketA.reached with zero | ⟨last, lastId, point, atLast, lastLive, below⟩
    · omega
    · have past := ordered.past last lastId idB rankB atLast (mem_of_getElem? atB) lastLive aliveB
        (by rw [foldB]; exact Std.lt_trans below lt) rankedB
      omega
  · rcases bracketA.reached with zero | ⟨last, lastId, point, atLast, lastLive, below⟩
    · omega
    · have inside := ordered.lt_insertionPoint atLast lastLive (Std.lt_trans below lt)
      omega

end Goz.NameStore
