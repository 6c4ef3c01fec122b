import Goz.Index.NameLayout

namespace Goz.NameStore

open Function List

variable {s s' : NameStore} {id : NameId} {n : Nat}

def Live (s : NameStore) (id : NameId) : Prop := 0 < s.refcount id

instance (s : NameStore) (id : NameId) : Decidable (s.Live id) := inferInstanceAs (Decidable (_ < _))

structure Wf [Externals] (s : NameStore) : Prop where
  laid : Laid s.raw s.folded s.pairs s.ids
  live_lt : ∀ id, s.Live id → id < s.ids
  folds : ∀ id, s.Live id → s.foldedBytesOf id = fold (s.rawBytes id)
  distinct : ∀ a b, s.Live a → s.Live b → s.rawBytes a = s.rawBytes b → a = b
  interned : ∀ id, id ∈ s.byBytes ↔ s.Live id

variable [Externals]

theorem wf_new : Wf new where
  laid := laid_nil _
  live_lt := by simp [Live, new]
  folds := by simp [Live, new]
  distinct := by simp [Live, new]
  interned := by simp [Live, new]

def SameBytes (s s' : NameStore) (id : NameId) : Prop :=
  s'.rawBytes id = s.rawBytes id ∧ s'.foldedBytesOf id = s.foldedBytesOf id

theorem Wf.dead_ids (wf : s.Wf) : s.refcount s.ids = 0 := by
  by_contra live
  exact Nat.lt_irrefl _ (wf.live_lt _ (Nat.pos_of_ne_zero live))

theorem Wf.recount (wf : s.Wf) (count : NameId → Nat)
    (same : ∀ id, 0 < count id ↔ s.Live id) : Wf { s with refcount := count } where
  laid := wf.laid
  live_lt := fun id live => wf.live_lt id ((same id).mp live)
  folds := fun id live => wf.folds id ((same id).mp live)
  distinct := fun a b ha hb => wf.distinct a b ((same a).mp ha) ((same b).mp hb)
  interned := fun id => (wf.interned id).trans (same id).symm

/-- What `intern` does: one more reference to the name's id, and no other name or chain changes. -/
structure Interned (s : NameStore) (name : Bytes) (s' : NameStore) (id : NameId) : Prop where
  wf : s'.Wf
  live : s'.Live id
  bytes : s'.rawBytes id = name
  refcount : s'.refcount = update s.refcount id (s.refcount id + 1)
  same : ∀ other, s.Live other → SameBytes s s' other
  head : (∀ other, s.refcount other = 0 → s.head other = none) → s'.head = s.head

theorem Wf.internNew (wf : s.Wf) {name : Bytes} (fresh : ∀ id, s.Live id → s.rawBytes id ≠ name) :
    Interned s name (s.internNew name) s.ids := by
  have dead := wf.dead_ids
  obtain ⟨laid, rawNew, foldedNew, same⟩ := wf.laid.push (fold name = name) name (fold name)
    (s.internNew name).pairs (by simp_all) (fun id below => update_of_ne (Nat.ne_of_lt below) _ s.pairs)
    (update_self s.ids _ s.pairs)
  replace rawNew : (s.internNew name).rawBytes s.ids = name := rawNew
  replace foldedNew : (s.internNew name).foldedBytesOf s.ids = fold name := foldedNew
  have kept : ∀ id, s.Live id → SameBytes s (s.internNew name) id := fun id live => same id (wf.live_lt id live)
  have live_iff : ∀ id, (s.internNew name).Live id ↔ s.Live id ∨ id = s.ids := by
    intro id
    by_cases eq : id = s.ids
    · simp [Live, NameStore.internNew, eq]
    · simp [Live, NameStore.internNew, eq]
  refine ⟨⟨laid, ?_, ?_, ?_, ?_⟩, (live_iff _).mpr (.inr rfl), rawNew, ?_, kept, ?_⟩
  · intro id live
    rcases (live_iff id).mp live with live | rfl
    · exact Nat.lt_succ_of_lt (wf.live_lt id live)
    · exact Nat.lt_succ_self _
  · intro id live
    rcases (live_iff id).mp live with live | rfl
    · rw [(kept id live).1, (kept id live).2, wf.folds id live]
    · rw [rawNew, foldedNew]
  · intro a b ha hb eq
    rcases (live_iff a).mp ha with ha | rfl <;> rcases (live_iff b).mp hb with hb | rfl
    · exact wf.distinct a b ha hb (by rwa [(kept a ha).1, (kept b hb).1] at eq)
    · exact absurd (by rwa [(kept a ha).1, rawNew] at eq) (fresh a ha)
    · exact absurd (by rwa [(kept b hb).1, rawNew, eq_comm] at eq) (fresh b hb)
    · rfl
  · intro id
    rw [live_iff, ← wf.interned id]
    simp [NameStore.internNew]
  · rw [dead]
    rfl
  · intro headless
    exact update_eq_self_iff.mpr (headless _ dead).symm

theorem Wf.intern (wf : s.Wf) (name : Bytes) : Interned s name (s.intern name).1 (s.intern name).2 := by
  unfold NameStore.intern
  split
  case h_1 id found =>
    have bytes : s.rawBytes id = name := by simpa using find?_some found
    have live : s.Live id := (wf.interned id).mp (mem_of_find?_eq_some found)
    refine ⟨wf.recount _ fun other => ?_, ?_, bytes, rfl, fun _ _ => ⟨rfl, rfl⟩, fun _ => rfl⟩
    · by_cases eq : other = id
      · simp [eq, live]
      · simp [update_of_ne eq, Live]
    · simp [Live]
  case h_2 missing =>
    refine wf.internNew fun id live => ?_
    simpa using find?_eq_none.mp missing id ((wf.interned id).mpr live)

/-- What `release` does to a live name: one reference less, and no other name changes. -/
structure Released (s : NameStore) (id : NameId) (s' : NameStore) : Prop where
  wf : s'.Wf
  refcount : s'.refcount = update s.refcount id (s.refcount id - 1)
  same : ∀ other, s'.Live other → SameBytes s s' other
  head : s'.head = s.head

theorem Wf.bury (wf : s.Wf) (live : s.Live id) (last : s.refcount id - 1 = 0) : Released s id (s.bury id) := by
  obtain ⟨laid, same⟩ := wf.laid.blank (wf.live_lt id live)
  have live_iff : ∀ other, (s.bury id).Live other ↔ s.Live other ∧ other ≠ id := by
    intro other
    by_cases eq : other = id
    · simp [Live, NameStore.bury, eq]
    · simp [Live, NameStore.bury, eq]
  have kept : ∀ other, s.Live other → other ≠ id → SameBytes s (s.bury id) other := fun other live ne =>
    same other (wf.live_lt other live) ne
  refine ⟨⟨laid, fun other live => wf.live_lt other ((live_iff other).mp live).1, ?_, ?_, ?_⟩, ?_, ?_, rfl⟩
  · intro other live
    obtain ⟨live, ne⟩ := (live_iff other).mp live
    rw [(kept other live ne).1, (kept other live ne).2, wf.folds other live]
  · intro a b ha hb eq
    obtain ⟨ha, na⟩ := (live_iff a).mp ha
    obtain ⟨hb, nb⟩ := (live_iff b).mp hb
    exact wf.distinct a b ha hb (by rwa [(kept a ha na).1, (kept b hb nb).1] at eq)
  · intro other
    rw [live_iff, ← wf.interned other]
    simp [NameStore.bury]
  · rw [last]
    rfl
  · intro other live
    obtain ⟨live, ne⟩ := (live_iff other).mp live
    exact kept other live ne

theorem Wf.release (wf : s.Wf) (id : NameId) (live : s.Live id) : Released s id (s.release id) := by
  unfold NameStore.release
  split
  case isTrue more =>
    refine ⟨wf.recount _ fun other => ?_, rfl, fun _ _ => ⟨rfl, rfl⟩, rfl⟩
    by_cases eq : other = id
    · simpa [eq, live] using more
    · simp [update_of_ne eq, Live]
  case isFalse last => exact wf.bury live (by omega)

def keptBelow (s : NameStore) (n : Nat) : List NameId := (range n).filter (fun id => 0 < s.refcount id)

omit [Externals] in
theorem keptBelow_succ (s : NameStore) (n : Nat) :
    s.keptBelow (n + 1) = if s.Live n then s.keptBelow n ++ [n] else s.keptBelow n := by
  by_cases live : s.Live n <;> simp_all [keptBelow, range_succ, Live]

omit [Externals] in
theorem mem_keptBelow : id ∈ s.keptBelow n ↔ id < n ∧ s.Live id := by
  simp [keptBelow, Live]

omit [Externals] in
theorem nodup_keptBelow (s : NameStore) (n : Nat) : (s.keptBelow n).Nodup := nodup_range.filter _

structure Copied (s : NameStore) (n : Nat) (c : CompactedNames) : Prop where
  laid : Laid c.raw c.folded (fun id => c.pairs.getD id default) c.pairs.length
  length : c.pairs.length = (s.keptBelow n).length
  refcount : c.refcount = (s.keptBelow n).map s.refcount
  head : c.head = (s.keptBelow n).map s.head
  remap : ∀ id k, c.remap id = some k ↔ (s.keptBelow n)[k]? = some id
  bytes : ∀ k id, (s.keptBelow n)[k]? = some id →
    rawBytesIn (fun id => c.pairs.getD id default) c.raw c.folded k = s.rawBytes id ∧
      foldedIn (fun id => c.pairs.getD id default) c.folded k = s.foldedBytesOf id

theorem Wf.copied_step (wf : s.Wf) {c : CompactedNames} (copied : Copied s n c)
    (below : n < s.ids) : Copied s (n + 1) (s.compactStep c n) := by
  have kept := s.keptBelow_succ n
  by_cases live : s.Live n
  · rw [if_pos live] at kept
    have alive : ¬ s.refcount n = 0 := Nat.ne_of_gt live
    have own : (s.pairs n).raw.rawInFolded = true → s.rawBytes n = s.foldedBytesOf n := by
      obtain ⟨_, _, _, laid⟩ := wf.laid
      exact laid.shared_read below
    obtain ⟨laid, rawNew, foldedNew, same⟩ := copied.laid.push (s.pairs n).raw.rawInFolded (s.rawBytes n)
      (s.foldedBytesOf n) (fun id => (s.compactStep c n).pairs.getD id default) own
      (fun id lt => by simp [compactStep, alive, getD_eq_getElem?_getD, getElem?_append_left lt])
      (by simp [compactStep, alive, getD_eq_getElem?_getD])
    have cases_at : ∀ {k : Nat} {id : NameId}, (s.keptBelow n ++ [n])[k]? = some id →
        (s.keptBelow n)[k]? = some id ∧ k < c.pairs.length ∨ k = c.pairs.length ∧ id = n := by
      intro k id at_
      rw [copied.length]
      exact Arena.getElem?_concat_cases at_
    refine ⟨?_, ?_, ?_, ?_, ?_, ?_⟩
    · simpa [compactStep, alive] using laid
    · simp [compactStep, alive, kept, copied.length]
    · simp [compactStep, alive, kept, copied.refcount]
    · simp [compactStep, alive, kept, copied.head]
    · intro id k
      have remap : (s.compactStep c n).remap = update c.remap n (some c.pairs.length) := by simp [compactStep, alive]
      rw [remap, kept]
      by_cases eq : id = n
      · subst eq
        have absent : id ∉ s.keptBelow id := by simp [mem_keptBelow]
        constructor
        · intro at_
          have : k = (s.keptBelow id).length := by simpa [copied.length, eq_comm] using at_
          simp [this]
        · intro at_
          rcases cases_at at_ with ⟨at_, -⟩ | ⟨rfl, -⟩
          · exact absurd (mem_of_getElem? at_) absent
          · simp
      · rw [update_of_ne eq, copied.remap]
        constructor
        · intro at_
          rwa [List.getElem?_append_left (List.getElem?_eq_some_iff.mp at_).1]
        · intro at_
          rcases cases_at at_ with ⟨at_, -⟩ | ⟨-, here⟩
          · exact at_
          · exact absurd here eq
    · intro k id at_
      rw [kept] at at_
      simp only [compactStep, if_neg alive] at rawNew foldedNew same ⊢
      rcases cases_at at_ with ⟨at_, lt⟩ | ⟨rfl, rfl⟩
      · rw [(same k lt).1, (same k lt).2]
        exact copied.bytes k id at_
      · exact ⟨rawNew, foldedNew⟩
  · have dead : s.refcount n = 0 := by simpa [Live] using live
    rw [if_neg live] at kept
    simp only [compactStep, dead, if_true]
    exact ⟨copied.laid, kept ▸ copied.length, kept ▸ copied.refcount, kept ▸ copied.head, kept ▸ copied.remap,
      kept ▸ copied.bytes⟩

theorem Wf.copied (wf : s.Wf) : Copied s s.ids s.planCompact := by
  suffices ∀ n, n ≤ s.ids → Copied s n ((range n).foldl s.compactStep
      { raw := [], folded := [], pairs := [], refcount := [], head := [], remap := fun _ => none }) from
    this s.ids le_rfl
  intro n
  induction n with
  | zero =>
    intro _
    exact ⟨laid_nil _, rfl, rfl, rfl, by simp [keptBelow], by simp [keptBelow]⟩
  | succ n ih =>
    intro le
    rw [range_succ, foldl_append]
    exact wf.copied_step (ih (by omega)) le

/-- What a compaction does: the live names get new ids, one each, and keep their bytes, counts and chains. -/
structure Renumbered (s s' : NameStore) (remap : NameId → Option NameId) : Prop where
  wf : s'.Wf
  moved : ∀ id new, remap id = some new → s'.rawBytes new = s.rawBytes id ∧
    s'.foldedBytesOf new = s.foldedBytesOf id ∧ s'.refcount new = s.refcount id ∧ s'.head new = s.head id
  live : ∀ id, (∃ new, remap id = some new) ↔ s.Live id
  inj : ∀ a b new, remap a = some new → remap b = some new → a = b
  onto : ∀ new, s'.Live new → ∃ id, remap id = some new
  headless : ∀ new, s'.refcount new = 0 → s'.head new = none

theorem Wf.installCompacted (wf : s.Wf) : Renumbered s (s.installCompacted s.planCompact) s.planCompact.remap := by
  have copied := wf.copied
  set c := s.planCompact
  set s' := s.installCompacted c
  have refcount_at : ∀ k id, (s.keptBelow s.ids)[k]? = some id → s'.refcount k = s.refcount id := by
    intro k id at_
    show c.refcount.getD k 0 = _
    simp [copied.refcount, getD_eq_getElem?_getD, at_]
  have refcount_past : ∀ k, (s.keptBelow s.ids)[k]? = none → s'.refcount k = 0 := by
    intro k past
    show c.refcount.getD k 0 = _
    simp [copied.refcount, getD_eq_getElem?_getD, past]
  have head_at : ∀ k id, (s.keptBelow s.ids)[k]? = some id → s'.head k = s.head id := by
    intro k id at_
    show c.head.getD k none = _
    simp [copied.head, getD_eq_getElem?_getD, at_]
  have source_live : ∀ k id, (s.keptBelow s.ids)[k]? = some id → s.Live id := fun k id at_ =>
    (mem_keptBelow.mp (mem_of_getElem? at_)).2
  have live_iff : ∀ k, s'.Live k ↔ ∃ id, (s.keptBelow s.ids)[k]? = some id := by
    intro k
    cases at_ : (s.keptBelow s.ids)[k]? with
    | none => simp [Live, refcount_past k at_]
    | some id => simpa [Live, refcount_at k id at_] using source_live k id at_
  have bytes : ∀ k id, (s.keptBelow s.ids)[k]? = some id →
      s'.rawBytes k = s.rawBytes id ∧ s'.foldedBytesOf k = s.foldedBytesOf id := copied.bytes
  refine ⟨⟨copied.laid, ?_, ?_, ?_, ?_⟩, ?_, ?_, ?_, ?_, ?_⟩
  · intro k live
    obtain ⟨id, at_⟩ := (live_iff k).mp live
    show k < c.pairs.length
    rw [copied.length]
    exact (List.getElem?_eq_some_iff.mp at_).1
  · intro k live
    obtain ⟨id, at_⟩ := (live_iff k).mp live
    rw [(bytes k id at_).1, (bytes k id at_).2, wf.folds id (source_live k id at_)]
  · intro a b ha hb eq
    obtain ⟨ida, at_a⟩ := (live_iff a).mp ha
    obtain ⟨idb, at_b⟩ := (live_iff b).mp hb
    rw [(bytes a ida at_a).1, (bytes b idb at_b).1] at eq
    have same := wf.distinct ida idb (source_live a ida at_a) (source_live b idb at_b) eq
    exact (List.getElem?_inj (List.getElem?_eq_some_iff.mp at_a).1 (nodup_keptBelow s _)).mp (by rw [at_a, at_b, same])
  · intro k
    show k ∈ range c.pairs.length ↔ _
    rw [live_iff, mem_range, copied.length]
    simp [List.getElem?_eq_some_iff]
  · intro id new at_
    have at_ := (copied.remap id new).mp at_
    exact ⟨(bytes new id at_).1, (bytes new id at_).2, refcount_at new id at_, head_at new id at_⟩
  · intro id
    simp only [copied.remap, ← mem_iff_getElem?, mem_keptBelow]
    exact ⟨fun mem => mem.2, fun live => ⟨wf.live_lt id live, live⟩⟩
  · intro a b new ha hb
    simpa [(copied.remap a new).mp ha] using (copied.remap b new).mp hb
  · intro new live
    obtain ⟨id, at_⟩ := (live_iff new).mp live
    exact ⟨id, (copied.remap id new).mpr at_⟩
  · intro new dead
    cases at_ : (s.keptBelow s.ids)[new]? with
    | some id => exact absurd dead (Nat.ne_of_gt ((live_iff new).mpr ⟨id, at_⟩))
    | none =>
      show c.head.getD new none = none
      simp [copied.head, getD_eq_getElem?_getD, at_]

/-- The same names under another order: what a sort or a merge of the order does. -/
structure Reordered (s s' : NameStore) : Prop where
  raw : s'.raw = s.raw
  folded : s'.folded = s.folded
  ids : s'.ids = s.ids
  pairs : s'.pairs = s.pairs
  refcount : s'.refcount = s.refcount
  head : s'.head = s.head
  byBytes : s'.byBytes = s.byBytes

omit [Externals] in
theorem reordered_mergeUnranked (s : NameStore) : Reordered s s.mergeUnranked := by
  unfold mergeUnranked
  split <;> constructor <;> rfl

inductive Resorted (s : NameStore) : NameStore → Prop
  | merge : Resorted s s.mergeUnranked
  | build : Resorted s s.buildOrder

omit [Externals] in
theorem Resorted.reordered (resorted : Resorted s s') : Reordered s s' := by
  cases resorted with
  | merge => exact reordered_mergeUnranked s
  | build => constructor <;> rfl

omit [Externals] in
theorem Reordered.sameBytes (same : Reordered s s') (id : NameId) : SameBytes s s' id := by
  simp only [SameBytes, rawBytes, foldedBytesOf, same.raw, same.folded, same.pairs, and_self]

theorem Wf.reordered (wf : s.Wf) (same : Reordered s s') : s'.Wf := by
  have live : ∀ id, s'.Live id ↔ s.Live id := fun id => by rw [Live, Live, same.refcount]
  have bytes : ∀ id, s'.rawBytes id = s.rawBytes id := fun id => (same.sameBytes id).1
  refine ⟨?_, ?_, ?_, ?_, ?_⟩
  · rw [same.raw, same.folded, same.pairs, same.ids]
    exact wf.laid
  · exact fun id alive => same.ids ▸ wf.live_lt id ((live id).mp alive)
  · exact fun id alive => by rw [(same.sameBytes id).2, bytes, wf.folds id ((live id).mp alive)]
  · exact fun a b ha hb eq => wf.distinct a b ((live a).mp ha) ((live b).mp hb) (by rwa [bytes, bytes] at eq)
  · exact fun id => by rw [same.byBytes, wf.interned id, live id]

end Goz.NameStore
