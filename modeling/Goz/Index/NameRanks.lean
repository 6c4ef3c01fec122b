import Goz.Index.NameRuns

namespace Goz.NameStore

open List Externals

variable [Externals] {s : NameStore} {id : NameId}

theorem merging_resorts (reached : Reached s) :
    s.mergeUnranked.order = s.buildOrder.order ∧ s.mergeUnranked.rankOf = s.buildOrder.rankOf ∧
    ((s.order.filter fun id => s.refcount id > 0) ++ s.unranked.filter fun id => s.refcount id > 0).Perm
      ((range s.ids).filter fun id => s.refcount id > 0) ∧
    (∀ id, s.refcount id > 0 → id < s.ids) ∧
    (s.order.filter fun id => s.refcount id > 0).Pairwise fun a b =>
      s.foldedBytesOf a < s.foldedBytesOf b ∨ s.foldedBytesOf a = s.foldedBytesOf b ∧ a < b := by
  obtain ⟨wf, ordered, -⟩ := reached.tidy
  have same := ordered.mergeUnranked_eq wf
  refine ⟨by rw [same], by rw [same], ?_, wf.live_lt, ?_⟩
  · rw [← filter_append]
    exact ordered.live_perm wf
  · have apart : (s.order.filter fun id => s.refcount id > 0).Nodup := (nodup_append'.mp ordered.nodup).1.filter _
    apply (ordered.live_sorted.and apart).imp
    rintro a b ⟨le, ne⟩
    exact (keyLe_iff.mp le).imp_right fun ⟨fold, ids⟩ => ⟨fold, lt_of_le_of_ne ids ne⟩

omit [Externals] in
theorem merging_resorts_waiting :
    letI := ascii
    let s := (((new.intern [0x62]).1.buildOrder.intern [0x41]).1.intern [0x63]).1
    s.order = [0] ∧ s.unranked = [1, 2] ∧ s.mergeUnranked.order = s.buildOrder.order ∧
      s.mergeUnranked.rankOf = s.buildOrder.rankOf := by
  let _ := ascii
  have reached := (((Reached.new.intern [0x62]).buildOrder.intern [0x41]).intern [0x63])
  obtain ⟨order, ranks, -⟩ := merging_resorts reached
  exact ⟨by decide +kernel, by decide +kernel, order, ranks⟩

omit [Externals] in
theorem Ordered.mem_of_ranked {rank : Nat} (ordered : s.Ordered) (live : s.Live id) (ranked : s.rankOf id = some rank) :
    id ∈ s.order := by
  apply (mem_append.mp (ordered.cover id live)).resolve_right
  intro waits
  rw [ordered.waiting id waits] at ranked
  cases ranked

omit [Externals] in
/-- A rank that holds a live name holds the first live one of the group. -/
theorem Ordered.rank_eq_groupAt {rank : Nat} {first : NameId} (ordered : s.Ordered) (live : s.Live id)
    (ranked : s.rankOf id = some rank) (at_ : s.order[rank]? = some first) (alive : s.Live first) :
    rank = s.groupAt (s.foldedBytesOf id) := by
  have mem := ordered.mem_of_ranked live ranked
  obtain ⟨pos, atId⟩ := getElem?_of_mem mem
  obtain ⟨own, isOwn, le⟩ := ordered.ranked pos id atId live
  obtain rfl := Option.some.inj (ranked.symm.trans isOwn)
  have notBelow : ¬ s.foldedBytesOf first < s.foldedBytesOf id := fun below =>
    absurd (ordered.past rank first id rank at_ mem alive live below ranked) (lt_irrefl rank)
  have notAbove := ordered.position_le at_ atId alive live le
  have same : s.foldedBytesOf first = s.foldedBytesOf id := by
    rcases Std.lt_trichotomy (s.foldedBytesOf first) (s.foldedBytesOf id) with lt | eq | gt
    · exact absurd lt notBelow
    · exact eq
    · exact absurd gt notAbove
  obtain ⟨inside, rfl⟩ := List.getElem?_eq_some_iff.mp at_
  symm
  rw [groupAt, findIdx_eq inside]
  refine ⟨by simp [alive, same], fun j lt => ?_⟩
  -- a live name of the group before the rank would have the same rank, which is at most its place
  by_contra held
  simp only [Bool.not_eq_false, Bool.and_eq_true, decide_eq_true_eq] at held
  have within : j < s.order.length := lt.trans inside
  obtain ⟨earlier, isEarlier, atMost⟩ := ordered.ranked j _ (getElem?_eq_getElem within) held.1
  rw [ordered.same _ id (getElem_mem within) mem held.1 live held.2, ranked] at isEarlier
  obtain rfl := Option.some.inj isEarlier
  omega

/-- The position in the order of the first live name that folds as a ranked name does is its rank, unless the name that was first
    when ranks were last given is gone. -/
theorem ranks_lead_groups (reached : Reached s) :
    (∀ id rank, s.Live id → s.rankOf id = some rank → rank = s.groupAt (s.foldedBytesOf id)) ↔
      ∀ id rank, s.Live id → s.rankOf id = some rank → ∃ first, s.order[rank]? = some first ∧ s.Live first := by
  have ordered := reached.tidy.ordered
  constructor
  · intro leads id rank live ranked
    have inside : s.groupAt (s.foldedBytesOf id) < s.order.length :=
      findIdx_lt_length_of_exists ⟨id, ordered.mem_of_ranked live ranked, by simp [live]⟩
    have held := findIdx_getElem (w := inside)
    simp only [Bool.and_eq_true, decide_eq_true_eq] at held
    rw [leads id rank live ranked]
    exact ⟨_, getElem?_eq_getElem inside, held.1⟩
  · intro alive id rank live ranked
    obtain ⟨first, at_, alive⟩ := alive id rank live ranked
    exact ordered.rank_eq_groupAt live ranked at_ alive

/-- The names `a` and `A`. -/
def casePair : NameStore :=
  letI := ascii
  ((new.intern [0x61]).1.intern [0x41]).1

omit [Externals] in
theorem casePair_built :
    casePair.buildOrder = ({ casePair with order := [0, 1], unranked := [], deadRanked := 0 } : NameStore).rerank := by
  have order : ((range casePair.ids).filter fun id => casePair.refcount id > 0).mergeSort casePair.keyLe = [0, 1] :=
    (keyLe_linear casePair).sort_eq (.refl _) (by decide)
  rw [buildOrder, order]

omit [Externals] in
theorem reached_casePair : letI := ascii; Reached casePair.buildOrder :=
  letI := ascii
  ((Reached.new.intern [0x61]).intern [0x41]).buildOrder

omit [Externals] in
/-- `A` keeps the place of `a` for its rank when `a` is gone. -/
theorem ranks_outlive_leader :
    letI := ascii
    let s := casePair.buildOrder.release 0
    Reached s ∧ s.Live 1 ∧ s.rankOf 1 = some 0 ∧ s.groupAt (s.foldedBytesOf 1) = 1 := by
  let _ := ascii
  refine ⟨reached_casePair.release ?_, ?_⟩
  all_goals
    rw [casePair_built]
    decide

omit [Externals] in
theorem ranks_lead_groups_pair :
    letI := ascii
    let s := casePair.buildOrder.release 1
    Reached s ∧ s.Live 0 ∧ s.rankOf 0 = some 0 ∧ s.groupAt (s.foldedBytesOf 0) = 0 := by
  let _ := ascii
  have second : casePair.buildOrder.Live 1 := by rw [casePair_built]; decide
  have reached := reached_casePair.release second
  have facts : (casePair.buildOrder.release 1).Live 0 ∧ ¬ (casePair.buildOrder.release 1).Live 1 ∧
      (casePair.buildOrder.release 1).rankOf 0 = some 0 ∧ (casePair.buildOrder.release 1).order = [0, 1] ∧
      (casePair.buildOrder.release 1).ids = 2 := by
    rw [casePair_built]
    decide
  obtain ⟨live, dead, ranked, order, ids⟩ := facts
  refine ⟨reached, live, ranked, ((ranks_lead_groups reached).mpr (fun id rank alive at_ => ?_) 0 0 live ranked).symm⟩
  have only : ∀ n : Nat, n < 2 → n = 0 ∨ n = 1 := by omega
  rcases only id (ids ▸ reached.tidy.wf.live_lt id alive) with rfl | rfl
  · obtain rfl := Option.some.inj (ranked.symm.trans at_)
    exact ⟨0, by rw [order]; rfl, live⟩
  · exact absurd alive dead

end Goz.NameStore
