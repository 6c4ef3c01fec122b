import Goz.Index.Cycles
import Goz.Index.NameRuns

namespace Goz

open List

namespace NameStore

variable [Externals] {s s' : NameStore} {move : NameId → NameId} {a b : NameId}

/-- Every live name of `s` is a name of `s'`, in the same order, with its bytes, its count and its chain. -/
structure Relocated (move : NameId → NameId) (s s' : NameStore) : Prop where
  kept : s'.keptBelow s'.ids = (s.keptBelow s.ids).map move
  raw : ∀ id, s.Live id → s'.rawBytes (move id) = s.rawBytes id
  folded : ∀ id, s.Live id → s'.foldedBytesOf (move id) = s.foldedBytesOf id
  refcount : ∀ id, s.Live id → s'.refcount (move id) = s.refcount id
  head : ∀ id, s.Live id → s'.head (move id) = s.head id

omit [Externals] in
theorem Reordered.relocated (same : Reordered s s') : Relocated id s s' where
  kept := by
    rw [map_id, keptBelow, keptBelow, same.ids, same.refcount]
  raw := fun id _ => (same.sameBytes id).1
  folded := fun id _ => (same.sameBytes id).2
  refcount := fun id _ => congrFun same.refcount id
  head := fun id _ => congrFun same.head id

def compactedId (s : NameStore) (id : NameId) : NameId := (s.planCompact.remap id).getD nilName

theorem Wf.compactedId (wf : s.Wf) {id : NameId} (live : s.Live id) : s.planCompact.remap id = some (s.compactedId id) := by
  obtain ⟨new, remap⟩ := (wf.installCompacted.live id).mpr live
  rw [NameStore.compactedId, remap]
  rfl

theorem Wf.relocated_compact (wf : s.Wf) : Relocated s.compactedId s (s.installCompacted s.planCompact) := by
  have copied := wf.copied
  have renumbered := wf.installCompacted
  have moved := fun id (live : s.Live id) => renumbered.moved id _ (wf.compactedId live)
  refine ⟨?_, fun id live => (moved id live).1, fun id live => (moved id live).2.1, fun id live => (moved id live).2.2.1,
    fun id live => (moved id live).2.2.2⟩
  have all : (s.installCompacted s.planCompact).keptBelow (s.installCompacted s.planCompact).ids =
      range (s.keptBelow s.ids).length := by
    show (range s.planCompact.pairs.length).filter _ = _
    rw [copied.length, filter_eq_self]
    intro new below
    have at_ := getElem?_eq_getElem (mem_range.mp below)
    have live := (mem_keptBelow.mp (mem_of_getElem? at_)).2
    have count := (renumbered.moved _ new ((copied.remap _ new).mpr at_)).2.2.1
    rw [decide_eq_true_eq, count]
    exact live
  rw [all]
  apply ext_getElem
  · simp
  · intro new below _
    rw [length_range] at below
    have at_ := getElem?_eq_getElem below
    rw [getElem_range, getElem_map, NameStore.compactedId, (copied.remap _ new).mpr at_]
    rfl

omit [Externals] in
theorem pairwise_keptBelow (s : NameStore) (n : Nat) : (s.keptBelow n).Pairwise (· < ·) := pairwise_lt_range.filter _

variable (relocated : Relocated move s s')
include relocated

theorem Relocated.mono (wf : s.Wf) (liveA : s.Live a) (liveB : s.Live b)
    (lt : a < b) : move a < move b := by
  have moved := pairwise_keptBelow s' s'.ids
  rw [relocated.kept, pairwise_map] at moved
  obtain ⟨i, belowI, rfl⟩ := getElem_of_mem (mem_keptBelow.mpr ⟨wf.live_lt a liveA, liveA⟩)
  obtain ⟨j, belowJ, rfl⟩ := getElem_of_mem (mem_keptBelow.mpr ⟨wf.live_lt b liveB, liveB⟩)
  have before : i < j := by
    by_contra late
    rcases Nat.lt_or_eq_of_le (Nat.le_of_not_lt late) with later | rfl
    · exact absurd (pairwise_iff_getElem.mp (pairwise_keptBelow s s.ids) j i belowJ belowI later) (Nat.lt_asymm lt)
    · exact absurd lt (Nat.lt_irrefl _)
  exact pairwise_iff_getElem.mp moved i j belowI belowJ before

theorem Relocated.le_iff (wf : s.Wf) (liveA : s.Live a) (liveB : s.Live b) :
    move a ≤ move b ↔ a ≤ b := by
  rcases Nat.lt_trichotomy a b with lt | rfl | gt
  · exact iff_of_true (Nat.le_of_lt (relocated.mono wf liveA liveB lt)) (Nat.le_of_lt lt)
  · exact iff_of_true le_rfl le_rfl
  · exact iff_of_false (Nat.not_le.mpr (relocated.mono wf liveB liveA gt)) (Nat.not_le.mpr gt)

theorem Relocated.keyLe (wf : s.Wf) (liveA : s.Live a) (liveB : s.Live b) :
    s'.keyLe (move a) (move b) = s.keyLe a b := by
  unfold NameStore.keyLe
  simp only [relocated.folded a liveA, relocated.folded b liveB, relocated.le_iff wf liveA liveB]

end NameStore

namespace VolumeIndex

open Ascent

variable [Externals] {ix ix' : VolumeIndex} {move : NameId → NameId} {e : EntryIdx}

/-- What maintenance does: entries get the new ids of their names and are else as they were. -/
structure Restored (move : NameId → NameId) (ix ix' : VolumeIndex) : Prop where
  entries : ix'.entries = { ix.entries with nameId := ix'.entries.nameId }
  root : ix'.root = ix.root
  lostFound : ix'.lostFound = ix.lostFound
  names : NameStore.Relocated move ix.names ix'.names
  nameId : ∀ e, ix.Live e → ix'.entries.nameId e = move (ix.entries.nameId e)
  ok : ix.Integrity
  ok' : ix'.Integrity
  tidy : ix.names.Tidy
  tidy' : ix'.names.Tidy

theorem restored_resorted (ok : ix.Integrity) (tidy : ix.names.Tidy) {names : NameStore} (resorted : NameStore.Resorted ix.names names)
    (byFrn : FrnMap) : Restored id ix { ix with names := names, byFrn := byFrn } where
  entries := rfl
  root := rfl
  lostFound := rfl
  names := resorted.reordered.relocated
  nameId := fun _ _ => rfl
  ok := ok
  ok' := (ok.reorder resorted.reordered).relabel byFrn ix.entries.nextLink ix.entries.size ix.entries.mtime ix.stats ix.dirty ix.generation
  tidy := tidy
  tidy' := tidy.resorted resorted

theorem Restored.pruned (same : Restored move ix ix') : Restored move ix ix'.pruneCycleSuspects :=
  { same with ok' := same.ok'.prune }

theorem restored_compacted (ok : ix.Integrity) (tidy : ix.names.Tidy) :
    Restored ix.names.compactedId ix (ix.applyCompaction ix.names.planCompact) where
  entries := rfl
  root := rfl
  lostFound := rfl
  names := ok.names.relocated_compact
  nameId := by
    intro e live
    have alive : ix.entries.isTombstone e = false := live
    simp [applyCompaction, alive, NameStore.compactedId]
  ok := ok
  ok' := ok.compact
  tidy := tidy
  tidy' := tidy.installCompacted

namespace Restored

variable (same : Restored move ix ix')
include same

theorem rawName (live : ix.Live e) : ix'.rawName e = ix.rawName e := by
  rw [VolumeIndex.rawName, same.nameId e live]
  exact same.names.raw _ (same.ok.name_live live)

theorem foldedName (live : ix.Live e) : ix'.foldedName e = ix.foldedName e := by
  rw [VolumeIndex.foldedName, same.nameId e live]
  exact same.names.folded _ (same.ok.name_live live)

theorem parent : ix'.entries.parent = ix.entries.parent := by
  rw [same.entries]

theorem isTombstone : ix'.entries.isTombstone = ix.entries.isTombstone := by
  rw [same.entries]
  rfl

theorem live : ix'.Live e ↔ ix.Live e := by
  rw [VolumeIndex.Live, VolumeIndex.Live, same.entries]
  exact Iff.rfl

theorem pathChain (hops : Nat) (e : EntryIdx) : ix'.pathChain hops e = ix.pathChain hops e := by
  rw [pathChain_eq, pathChain_eq, same.parent]

theorem nameChain {id : NameId} (live : ix.names.Live id) : ix'.nameChain (move id) = ix.nameChain id := by
  unfold VolumeIndex.nameChain
  rw [same.names.head id live, same.entries]

theorem pushComponent {out : Bytes} (live : ix.Live e) : ix'.pushComponent out e = ix.pushComponent out e := by
  rw [VolumeIndex.pushComponent, VolumeIndex.pushComponent, same.root, same.rawName live]

theorem foldl_pushComponent {chain : List EntryIdx} (live : ∀ x ∈ chain, ix.Live x) (out : Bytes) :
    chain.foldl ix'.pushComponent out = chain.foldl ix.pushComponent out := by
  induction chain generalizing out with
  | nil => rfl
  | cons x rest ih =>
    rw [foldl_cons, foldl_cons, same.pushComponent (live x mem_cons_self)]
    exact ih (fun y mem => live y (mem_cons_of_mem _ mem)) _

theorem pathOf (e : EntryIdx) (out : Bytes) : ix'.pathOf e out = ix.pathOf e out := by
  by_cases live : ix.Live e
  · have above : ∀ x ∈ (ix.pathChain maxPathHops e).reverse, ix.Live x := by
      intro x mem
      rw [mem_reverse, pathChain_eq] at mem
      obtain ⟨k, -, way⟩ := mem_trail mem
      exact same.ok.ascend_live live way
    unfold VolumeIndex.pathOf
    dsimp only
    rw [same.pathChain, same.isTombstone, same.parent, same.lostFound, same.foldl_pushComponent above]
  · have dead : ix.entries.isTombstone e = true := by simpa [VolumeIndex.Live, EntryTable.Live] using live
    rw [VolumeIndex.pathOf, VolumeIndex.pathOf, same.isTombstone, if_pos dead, if_pos dead]

end Restored

end VolumeIndex

end Goz
