import Goz.Index.Operations

namespace Goz

open Function Intrusive Externals

namespace VolumeIndex

section Ops

variable [Externals] {ix : VolumeIndex} {rootFrn : Frn}

section New

variable (rootFrn : Frn) {frnMap : FrnMap}

theorem live_new (frnMap : FrnMap) (e : EntryIdx) : (new rootFrn frnMap).Live e ↔ e = 0 ∨ e = 1 := by
  show (update (update (fun _ => ({ tombstone := true } : EntryFlags)) 0 { dir := true }) 1
    { dir := true, lostFound := true } e).tombstone = false ↔ e = 0 ∨ e = 1
  by_cases one : e = 1
  · simp [one]
  · by_cases zero : e = 0 <;> simp [one, zero]

omit [Externals] in
theorem update_none {α β : Type*} [DecidableEq α] {f : α → Option β} (empty : ∀ x, f x = none) (a x : α) :
    update f a none x = none := by
  by_cases same : x = a
  · rw [same, update_self]
  · rw [update_of_ne same, empty]

theorem parent_new (frnMap : FrnMap) (e : EntryIdx) : (new rootFrn frnMap).entries.parent e = none :=
  update_none (update_none (fun _ => rfl) 0) 1 e

theorem integrity_new : (new rootFrn frnMap).Integrity := by
  have first := NameStore.wf_new.intern []
  have heads := first.head fun _ _ => rfl
  have second := first.wf.intern lostFoundName
  set s := (NameStore.new.intern []).1
  set rootName := (NameStore.new.intern []).2
  have heads' := second.head fun _ _ => by rw [heads]; rfl
  set names := (s.intern lostFoundName).1
  set lfName := (s.intern lostFoundName).2
  have live := live_new rootFrn frnMap
  have blank : ∀ e, update (update (fun _ => (none : Option EntryIdx)) 0 none) 1 none e = none :=
    update_none (update_none (fun _ => rfl) 0) 1
  have slots := (EntryTable.slots_new.alloc rootFrn none rootName { dir := true } sizeUnknown mtimeUnknown none rfl).alloc
    lostFoundFrn none lfName { dir := true, lostFound := true } sizeUnknown mtimeUnknown none rfl
  have parent := parent_new rootFrn frnMap
  have empty : Buckets (update (update (fun _ => (none : Option EntryIdx)) 0 none) 1 none)
      (update (update (fun _ => (none : Option EntryIdx)) 0 none) 1 none) names.head
      (fun e => some (update (update (fun _ => nilName) 0 rootName) 1 lfName e)) (fun _ => False) (fun _ => []) := by
    refine ⟨fun k => ⟨?_, True.intro⟩, fun k e => by simp⟩
    show names.head k = none
    rw [heads', heads]
    rfl
  have pushed := (empty.push 0 rootName id rfl).push 1 lfName (by simp) rfl
  refine ⟨slots.of_same (fun _ => rfl) rfl rfl rfl, setChainHead_wf (setChainHead_wf second.wf _ _) _ _, ?_, ?_, ?_, ?_,
    (live _).mpr (.inr rfl), parent _, Nat.zero_ne_one, fun e there _ => (live e).mp there⟩
  · refine ⟨fun _ => [], fun k => ⟨blank k, True.intro⟩, fun k e => ?_⟩
    simp [parent]
  · intro e p _ at_
    simp [parent] at at_
  · refine ⟨_, pushed.congr_held (fun e => ?_), fun id => ?_⟩
    · rw [live e]
      simp
    · show names.refcount id = _
      have zero : s.refcount = update (fun _ => 0) rootName 1 := first.refcount
      rw [second.refcount, zero]
      by_cases lost : id = lfName
      · by_cases same : lfName = rootName <;> simp [lost, same]
      · by_cases same : id = rootName
        · simp [same, same ▸ lost]
        · simp [lost, same]
  · refine Multimap.exact_empty fun e => ?_
    rintro ⟨there, inScope⟩
    have root : (new rootFrn frnMap).root = 0 := rfl
    have lost : (new rootFrn frnMap).lostFound = 1 := rfl
    simp only [indexed, root, lost, ne_eq, Bool.and_eq_true, decide_eq_true_eq] at inScope
    rcases (live e).mp there with rfl | rfl
    · exact inScope.1.2 rfl
    · exact inScope.2 rfl

theorem invariant_new (empty : ∀ r, frnMap.get r = none) : (new rootFrn frnMap).Invariant := by
  have live := live_new rootFrn frnMap
  refine ⟨integrity_new rootFrn, update (fun _ => []) rootFrn.recordNumber [0], fun r => ?_, fun r e => ?_,
    fun r a b ha hb => ?_⟩
  · have next : ∀ e, (new rootFrn frnMap).entries.nextLink e = none := update_none (update_none (fun _ => rfl) 0) 1
    show Linked _ ((frnMap.set rootFrn.recordNumber 0).get r) _
    by_cases here : r = rootFrn.recordNumber
    · simp only [FrnMap.get_set, here, if_true, update_self]
      exact ⟨rfl, next 0⟩
    · simp only [FrnMap.get_set, if_neg here, update_of_ne here, empty]
      rfl
  · rw [live e]
    show _ ↔ (e = 0 ∨ e = 1) ∧ e ≠ 1 ∧ ((new rootFrn frnMap).entries.frn e).recordNumber = r
    by_cases zero : e = 0
    · subst zero
      have frn : (new rootFrn frnMap).entries.frn 0 = rootFrn := rfl
      by_cases here : r = rootFrn.recordNumber
      · simp [here, frn]
      · simp [update_of_ne here, frn, Ne.symm here]
    · have out : e ∉ update (fun _ => []) rootFrn.recordNumber [0] r := by
        by_cases here : r = rootFrn.recordNumber
        · simp [here, zero]
        · simp [update_of_ne here]
      simp only [out, zero, false_or, false_iff, not_and]
      exact fun one away => absurd one away
  · by_cases here : r = rootFrn.recordNumber
    · simp only [here, update_self, List.mem_singleton] at ha hb
      rw [ha, hb]
    · simp [update_of_ne here] at ha

end New

inductive IndexOp
  | insertEnum (rec : ParsedUsnRecord)
  | insertLayout (file : LayoutFile)
  | enrich (file : LayoutFile)
  | applyBatch (records : List ParsedUsnRecord)
  | reconcileLinks (frn : Frn) (actual : List LinkTarget)
  | setStat (frn : Frn) (size : UInt64) (mtime : Int64)
  | compact
  | mergeNames
  | optimizeStorage (capacity : Nat)

namespace IndexOp

def run (op : IndexOp) (ix : VolumeIndex) : VolumeIndex :=
  match op with
  | insertEnum rec => ix.insertEnum rec
  | insertLayout file => ix.insertLayout file
  | enrich file => ix.enrich file
  | applyBatch records => (ix.applyBatch records).1
  | reconcileLinks frn actual => ix.reconcileLinks frn actual
  | setStat frn size mtime => ix.setStat frn size mtime
  | compact => ix.compact
  | mergeNames => ix.mergeNames
  | optimizeStorage capacity => ix.optimizeStorage capacity

omit [Externals] in
def Allowed (op : IndexOp) (ix : VolumeIndex) : Prop :=
  match op with
  | reconcileLinks _ actual => ∀ target ∈ actual, ix.Live target.parent
  | _ => True

def Touches (op : IndexOp) (ix : VolumeIndex) (g : Frn) : Prop :=
  match op with
  | insertEnum rec => ix.rows.UpsertTouches rec.frn rec.parentFrn g
  | insertLayout file => LayoutTouches ix file g
  | enrich file => EnrichTouches ix file g
  | applyBatch records => ix.rows.BatchTouches records g
  | reconcileLinks frn _ => g = frn ∨ frn.Stale g
  | setStat .. | compact | mergeNames | optimizeStorage _ => False

end IndexOp

theorem Invariant.run (inv : ix.Invariant) (op : IndexOp) : Runs (op.Touches ix) ix (op.run ix) := by
  cases op with
  | insertEnum rec => exact (inv.upsertLink rec.frn rec.parentFrn rec.name rec.nameLossy rec.isDir).runs
  | insertLayout file => exact inv.insertLayout file
  | enrich file => exact inv.enrich file
  | applyBatch records => exact (inv.applyBatch records).runs
  | reconcileLinks frn actual => exact inv.reconcileLinks frn actual
  | setStat frn size mtime => exact inv.setStat frn size mtime
  | compact => exact inv.compact.runs
  | mergeNames => exact (inv.reorder .merge).runs
  | optimizeStorage capacity => exact inv.optimizeStorage capacity

inductive Reachable (rootFrn : Frn) : VolumeIndex → Prop
  | new {frnMap : FrnMap} (empty : ∀ r, frnMap.get r = none) : Reachable rootFrn (new rootFrn frnMap)
  | step {ix : VolumeIndex} (op : IndexOp) (before : Reachable rootFrn ix) (allowed : op.Allowed ix) :
      Reachable rootFrn (op.run ix)

theorem Reachable.invariant (reachable : Reachable rootFrn ix) : ix.Invariant := by
  induction reachable with
  | new empty => exact invariant_new rootFrn empty
  | step op _ _ ih => exact (ih.run op).invariant ih

theorem Reachable.root_eq (reachable : Reachable rootFrn ix) : ix.root = 0 := by
  induction reachable with
  | new empty => rfl
  | step op before _ ih =>
    have inv := before.invariant
    exact Steps.preserves (fun step ok root => (step.effect ok).root.trans root) (inv.run op).steps inv.integrity ih

section Integrity

def rebuildDirChildren (ix : VolumeIndex) : ScopeKey → Option (List EntryIdx) :=
  Multimap.build ix.scopeKey (ix.entries.iterLive.filter ix.indexed)

variable {ix : VolumeIndex}

theorem Integrity.children (ok : ix.Integrity) (p : EntryIdx) :
    Linked ix.entries.nextChild (ix.entries.firstChild p) (ix.children p) ∧
      ∀ e, e ∈ ix.children p ↔ ix.Live e ∧ ix.entries.parent e = some p := by
  obtain ⟨kids, tree⟩ := ok.tree
  have linked := (tree.chain p).linked
  have walked : ix.children p = kids p := linked.walk_eq (linked.length_le fun e mem =>
    ok.slots.live_lt e ((tree.mem p e).mp mem).1)
  rw [walked]
  exact ⟨linked, tree.mem p⟩

theorem Integrity.nameChain (ok : ix.Integrity) (id : NameId) :
    Linked ix.entries.nextSame (ix.names.head id) (ix.nameChain id) ∧
      (∀ e, e ∈ ix.nameChain id ↔ ix.Live e ∧ ix.entries.nameId e = id) ∧
      ix.names.refcount id = (ix.nameChain id).length := by
  obtain ⟨bearers, chains, counts⟩ := ok.bearers
  have linked := (chains.chain id).linked
  have walked : ix.nameChain id = bearers id := linked.walk_eq (linked.length_le fun e mem =>
    ok.slots.live_lt e ((chains.mem id e).mp mem).1)
  rw [walked]
  refine ⟨linked, fun e => ?_, counts id⟩
  rw [chains.mem id e, Option.some.injEq]

theorem Integrity.scope_rebuilt (ok : ix.Integrity) (key : ScopeKey) :
    Option.Rel List.Perm (ix.dirChildren key) (ix.rebuildDirChildren key) := by
  refine Multimap.Exact.rel ok.scope ?_ key
  refine (Multimap.Exact.build ix.scopeKey ((EntryTable.nodup_iterLive _).filter _)).congr (fun e => ?_) fun _ _ => rfl
  rw [List.mem_filter, EntryTable.mem_iterLive ok.slots]
  rfl

end Integrity

end Ops

def folderRecord : ParsedUsnRecord where
  majorVersion := 2
  frn := ⟨0x0001000000000006⟩
  parentFrn := ntfsRootFrn
  usn := 0
  timestampFt := 0
  reason := UsnReason.fileCreate
  attributes := fileAttributeDirectory
  name := [0x61]
  nameLossy := false

def folderIndex : VolumeIndex :=
  letI := ascii
  (new ntfsRootFrn (.sparse [])).insertEnum folderRecord

theorem reachable_folderIndex : letI := ascii; Reachable ntfsRootFrn folderIndex :=
  letI := ascii
  .step (.insertEnum folderRecord) (.new fun _ => rfl) trivial

/-- Structural integrity of every index an operation sequence can build. -/
theorem reachable_structural_integrity [Externals] {ix : VolumeIndex} {rootFrn : Frn} (reachable : Reachable rootFrn ix) :
    (∀ e p, ix.Live e → ix.entries.parent e = some p → ix.Live p) ∧
    (∀ p, Linked ix.entries.nextChild (ix.entries.firstChild p) (ix.children p) ∧ (ix.children p).Nodup ∧
      ∀ e, e ∈ ix.children p ↔ ix.Live e ∧ ix.entries.parent e = some p) ∧
    (∀ id, Linked ix.entries.nextSame (ix.names.head id) (ix.nameChain id) ∧ (ix.nameChain id).Nodup ∧
      (∀ e, e ∈ ix.nameChain id ↔ ix.Live e ∧ ix.entries.nameId e = id) ∧
      ix.names.refcount id = (ix.nameChain id).length) ∧
    (∀ key, Option.Rel List.Perm (ix.dirChildren key) (ix.rebuildDirChildren key)) := by
  have ok := reachable.invariant.integrity
  refine ⟨ok.parent_live, fun p => ?_, fun id => ?_, ok.scope_rebuilt⟩
  · obtain ⟨linked, mem⟩ := ok.children p
    exact ⟨linked, linked.nodup, mem⟩
  · obtain ⟨linked, mem, count⟩ := ok.nameChain id
    exact ⟨linked, linked.nodup, mem, count⟩

theorem folderIndex_parent_live : folderIndex.entries.parent 2 = some 0 ∧ folderIndex.Live 0 :=
  letI := ascii
  ⟨by decide, (reachable_structural_integrity reachable_folderIndex).1 2 0 (by decide) (by decide)⟩

/-- No two live entries share a record number under different FRNs, and each is reached from its FRN. -/
theorem reachable_slots_never_alias [Externals] {ix : VolumeIndex} {rootFrn : Frn} (reachable : Reachable rootFrn ix) :
    (∃ chains : Nat → List EntryIdx,
      (∀ r, Linked ix.entries.nextLink (ix.byFrn.get r) (chains r)) ∧
      (∀ r head, ix.byFrn.get r = some head → ∃ frn, frn.recordNumber = r ∧
        ∀ e ∈ chains r, ix.Live e ∧ ix.entries.frn e = frn) ∧
      (∀ e, ix.Live e → e ≠ ix.lostFound → ∀ r, e ∈ chains r ↔ r = (ix.entries.frn e).recordNumber)) ∧
    (∀ a b, ix.Live a → ix.Live b → a ≠ ix.lostFound → b ≠ ix.lostFound →
      (ix.entries.frn a).recordNumber = (ix.entries.frn b).recordNumber → ix.entries.frn a = ix.entries.frn b) ∧
    (∀ e, ix.Live e → e ≠ ix.lostFound → e ∈ ix.links (ix.entries.frn e)) := by
  have ok := reachable.invariant.integrity
  obtain ⟨chains, tenants⟩ := reachable.invariant.tenants
  refine ⟨⟨chains, tenants.linked, fun r head first => ?_, fun e live notLost r => ?_⟩, fun a b la lb na nb same => ?_,
    fun e live notLost => ?_⟩
  · have headIn := tenants.head_mem first
    refine ⟨ix.entries.frn head, ((tenants.mem r head).mp headIn).2.2, fun e mem => ?_⟩
    exact ⟨((tenants.mem r e).mp mem).1, tenants.one r e head mem headIn⟩
  · rw [tenants.mem r e]
    exact ⟨fun mem => mem.2.2.symm, fun same => ⟨live, notLost, same.symm⟩⟩
  · exact tenants.one _ a b ((tenants.mem _ a).mpr ⟨la, na, rfl⟩) ((tenants.mem _ b).mpr ⟨lb, nb, same.symm⟩)
  · exact (tenants.mem_links ok).mpr ⟨live, notLost, rfl⟩

theorem folderIndex_reached : folderIndex.Live 2 ∧ 2 ∈ folderIndex.links folderRecord.frn :=
  letI := ascii
  ⟨by decide, (reachable_slots_never_alias reachable_folderIndex).2.2 2 (by decide) (by decide)⟩

end VolumeIndex

end Goz
