import Goz.Index.Cycles

namespace Goz.VolumeIndex

open Function Intrusive Ascent List Option Externals

variable [Externals] {n : Nat}

section Move

variable {ix ix' : VolumeIndex} {rec : ParsedUsnRecord} {folder parent e : EntryIdx}

structure Moved (ix : VolumeIndex) (folder parent : EntryIdx) (ix' : VolumeIndex) : Prop where
  root : ix'.root = ix.root
  lost : ix'.lostFound = ix.lostFound
  live : ∀ e, ix'.Live e ↔ ix.Live e
  same : ∀ e, ix.Live e → e ≠ folder → SameEntry ix ix' e ∧ ix'.entries.parent e = ix.entries.parent e
  home : ix'.entries.parent folder = some parent

theorem Rewritten.moved {name : Bytes} {nameLossy isDir : Bool}
    (rewritten : Rewritten ix folder parent name nameLossy isDir ix') : Moved ix folder parent ix' where
  root := rewritten.frame.root
  lost := rewritten.frame.lostFound
  live := rewritten.live
  same e live other := ⟨rewritten.same e live other, rewritten.parents e live other⟩
  home := rewritten.entry.parent

omit [Externals] in
theorem Moved.reads (moved : Moved ix folder parent ix') {ix'' : VolumeIndex} (root : ix''.root = ix'.root)
    (lost : ix''.lostFound = ix'.lostFound) (entries : ix''.entries = ix'.entries) (raw : ix''.rawName = ix'.rawName)
    (folded : ix''.foldedName = ix'.foldedName) : Moved ix folder parent ix'' where
  root := root.trans moved.root
  lost := lost.trans moved.lost
  live e := by
    rw [VolumeIndex.Live, entries]
    exact moved.live e
  same e live other := by
    obtain ⟨same, parent⟩ := moved.same e live other
    rw [entries]
    refine ⟨⟨?_, ?_, ?_, ?_, ?_, ?_, ?_⟩, parent⟩
    · exact entries ▸ same.frn
    · exact entries ▸ same.flags
    · exact entries ▸ same.size
    · exact entries ▸ same.mtime
    · exact entries ▸ same.nextLink
    · exact raw ▸ same.rawName
    · exact folded ▸ same.foldedName
  home := by rw [entries, moved.home]

theorem Invariant.upsertLink_known (inv : ix.Invariant) {frn parentFrn : Frn} (single : ix.links frn = [folder])
    (known : ix.headOf parentFrn = some parent) (name : Bytes) (nameLossy isDir : Bool) :
    ix.upsertLink frn parentFrn name nameLossy isDir = (ix.rewriteEntry folder parent name nameLossy isDir, .ok) ∧
      ix.Live folder ∧ folder ≠ ix.lostFound ∧ ix.Live parent := by
  obtain ⟨found, next⟩ := inv.single_link_iff.mp single
  obtain ⟨first, own⟩ := headOf_some_iff.mp found
  obtain ⟨firstParent, ownParent⟩ := headOf_some_iff.mp known
  have apart : ¬ frn.Stale parentFrn := fun stale => by
    rw [stale.2, first] at firstParent
    exact stale.1 (by rw [← ownParent, ← some.inj firstParent, own])
  have reclaimed : ix.reclaimStale frn = ix := by simp [VolumeIndex.reclaimStale, first, own]
  have resolved : ix.resolveLinkParent frn parentFrn = (ix, parent) := by
    simp [VolumeIndex.resolveLinkParent, apart, VolumeIndex.resolveOrPlaceholderParent, known]
  obtain ⟨-, -, live, notLost⟩ := inv.rows_of_mapped first
  obtain ⟨-, -, parentLive, -⟩ := inv.rows_of_mapped firstParent
  refine ⟨?_, live, notLost, parentLive⟩
  simp [VolumeIndex.upsertLink, reclaimed, resolved, first, next]

theorem applyOps_dirty {ops : List UsnOp} (dirty : ∀ op ∈ ops, ∃ frn, op = .linkDirty frn ∨ op = .statDirty frn)
    (state : VolumeIndex × ApplyOutcome) : (ops.foldl applyOp state).1 = state.1 := by
  induction ops generalizing state with
  | nil => rfl
  | cons op rest ih =>
    rw [foldl_cons, ih fun other mem => dirty other (by simp [mem])]
    obtain ⟨frn, rfl | rfl⟩ := dirty op (by simp)
    · rfl
    · rfl

omit [Externals] in
open UsnReason in
theorem opsFor_named (named : rec.has (renameNewName ||| fileCreate) = true) (kept : rec.has fileDelete = false) :
    ∃ requests, opsFor rec = .upsert rec.frn rec.parentFrn rec.name rec.nameLossy rec.isDir :: requests ∧
      ∀ op ∈ requests, ∃ frn, op = .linkDirty frn ∨ op = .statDirty frn := by
  have old : rec.has (renameNewName ||| fileCreate ||| fileDelete) = true := by
    simp only [ParsedUsnRecord.has, decide_eq_true_eq, ne_eq] at named ⊢
    intro none_
    apply named
    have inside : (renameNewName ||| fileCreate ||| fileDelete) &&& (renameNewName ||| fileCreate) =
        renameNewName ||| fileCreate := by decide
    rw [← inside, ← UInt32.and_assoc, none_, UInt32.zero_and]
  unfold opsFor
  simp only [kept, named, old, Bool.false_eq_true, if_false, if_true, Bool.not_true, Bool.and_false, append_assoc,
    cons_append, nil_append]
  refine ⟨_, rfl, fun op mem => ?_⟩
  simp only [mem_append] at mem
  rcases mem with mem | mem | mem
  all_goals
    split at mem
    · rw [mem_singleton] at mem
      simp [mem]
    · exact absurd mem not_mem_nil

theorem Invariant.moved_applyBatch (inv : ix.Invariant)
    (named : rec.has (UsnReason.renameNewName ||| UsnReason.fileCreate) = true) (kept : rec.has UsnReason.fileDelete = false)
    (single : ix.links rec.frn = [folder]) (known : ix.headOf rec.parentFrn = some parent) :
    Moved ix folder parent (ix.applyBatch [rec]).1 ∧ ix.Live folder ∧ ix.Live parent := by
  obtain ⟨upserted, live, notLost, parentLive⟩ := inv.upsertLink_known single known rec.name rec.nameLossy rec.isDir
  obtain ⟨requests, split, dirty⟩ := opsFor_named named kept
  have moved := (inv.integrity.rewriteEntry live notLost parentLive rec.name rec.nameLossy rec.isDir).moved
  have applied : (([rec].flatMap opsFor).foldl VolumeIndex.applyOp (ix, {})).1 =
      ix.rewriteEntry folder parent rec.name rec.nameLossy rec.isDir := by
    rw [flatMap_singleton, split, foldl_cons, applyOps_dirty dirty]
    simp [VolumeIndex.applyOp, upserted]
  refine ⟨?_, live, parentLive⟩
  unfold VolumeIndex.applyBatch
  simp only [applied]
  split
  · have bytes := (NameStore.reordered_mergeUnranked
      (ix.rewriteEntry folder parent rec.name rec.nameLossy rec.isDir).names).sameBytes
    exact moved.reads rfl rfl rfl (funext fun e => (bytes _).1) (funext fun e => (bytes _).2)
  · exact moved.reads rfl rfl rfl rfl rfl

theorem Moved.sameWay (moved : Moved ix folder parent ix') (ok : ix.Integrity) (live : ix.Live e)
    (outside : ∀ k, ascend ix.entries.parent k e ≠ some folder) : SameWay ix ix' e := by
  have kept : ∀ k x, ascend ix.entries.parent k e = some x → SameEntry ix ix' x ∧
      ix'.entries.parent x = ix.entries.parent x := fun k x at_ =>
    moved.same x (ok.ascend_live live at_) fun same => outside k (same ▸ at_)
  exact ⟨moved.root, moved.lost, moved.live e, fun k x at_ => (kept k x at_).2, fun k x at_ => (kept k x at_).1.rawName⟩

/-- The folder's path is replaced in the path of what lies below it. -/
structure Rebased (ix ix' : VolumeIndex) (folder e : EntryIdx) : Prop where
  status : (ix'.pathOf e []).1 = (ix'.pathOf folder []).1
  -- the components from the folder down are the same
  names : ∃ names : List Bytes, (ix.pathOf e []).2 = names.foldl joinPath (ix.pathOf folder []).2 ∧
    (ix'.pathOf e []).2 = names.foldl joinPath (ix'.pathOf folder []).2
  bytes : (ix.pathOf folder []).2 ≠ [] → (ix'.pathOf folder []).2 ≠ [] →
    ∃ rest, (ix.pathOf e []).2 = (ix.pathOf folder []).2 ++ rest ∧ (ix'.pathOf e []).2 = (ix'.pathOf folder []).2 ++ rest

omit [Externals] in
theorem foldl_pushComponent_names (below : List EntryIdx) (path : Bytes) :
    below.foldl ix.pushComponent path = ((below.filter (· ≠ ix.root)).map ix.rawName).foldl joinPath path := by
  induction below generalizing path with
  | nil => rfl
  | cons x rest ih =>
    rw [foldl_cons, ih]
    by_cases root : x = ix.root
    · simp [pushComponent, root]
    · have one : ix.pushComponent path x = joinPath path (ix.rawName x) := by
        cases path with
        | nil => simp [pushComponent, root, joinPath]
        | cons b path => simp [pushComponent, root, joinPath]
      simp [root, one]

theorem Moved.rebased (moved : Moved ix folder parent ix') (ok : ix.Integrity) (folderLive : ix.Live folder)
    (parentLive : ix.Live parent) (outside : ∀ k, ascend ix.entries.parent k parent ≠ some folder) (live : ix.Live e)
    (shown : (ix.pathOf e []).1 = .ok) {k : Nat} {top : EntryIdx} (at_ : ascend ix.entries.parent k e = some folder)
    (above : ascend ix.entries.parent n parent = some top) (end_ : ix.entries.parent top = none)
    (bound : k + 1 + n < maxPathHops) : Rebased ix ix' folder e := by
  obtain ⟨-, last, ⟨⟨hops, lt, way⟩, lastEnd⟩, -⟩ := pathOf_ok shown
  have le := le_of_top way lastEnd at_
  have onward : ascend ix.entries.parent (hops - k) folder = some last := by
    rw [← ascend_of_ascend at_, Nat.add_sub_cancel' le, way]
  have before := Tops.pathOf_below at_ onward lastEnd (by omega) live folderLive
  -- below the folder nothing has changed
  have kept : ∀ j < k, ∀ x, ascend ix.entries.parent j e = some x → SameEntry ix ix' x ∧
      ix'.entries.parent x = ix.entries.parent x := fun j lt x here =>
    moved.same x (ok.ascend_live live here) fun same => ascend_ne_of_top at_ lt way lastEnd (same ▸ here)
  have sameWay := moved.sameWay ok parentLive outside
  have at' : ascend ix'.entries.parent k e = some folder := by
    rw [ascend_congr fun j lt x here => (kept j lt x here).2, at_]
  have above' : ascend ix'.entries.parent (n + 1) folder = some top := by
    rw [ascend_succ, moved.home, bind_some, ascend_congr fun j _ x here => sameWay.parent j x here, above]
  have end' : ix'.entries.parent top = none := by rw [sameWay.parent n top above, end_]
  have after := Tops.pathOf_below at' above' end' (by omega) ((moved.live e).mpr live) ((moved.live folder).mpr folderLive)
  have chain : trail ix'.entries.parent k e = trail ix.entries.parent k e :=
    trail_congr fun j lt x here => (kept j lt x here).2
  have pushed : ∀ path, (trail ix.entries.parent k e).reverse.foldl ix'.pushComponent path =
      (trail ix.entries.parent k e).reverse.foldl ix.pushComponent path := by
    refine foldl_pushComponent_congr moved.root fun x mem => ?_
    obtain ⟨j, lt, here⟩ := mem_trail (mem_reverse.mp mem)
    exact (kept j lt x here).1.rawName
  rw [chain, pushed] at after
  obtain ⟨rest, adds⟩ : ∃ rest : Bytes, ∀ path : Bytes, path ≠ [] →
      (trail ix.entries.parent k e).reverse.foldl ix.pushComponent path = path ++ rest := foldl_pushComponent_append _
  refine ⟨by rw [after], ?_, fun old new => ⟨rest, ?_, ?_⟩⟩
  · refine ⟨((trail ix.entries.parent k e).reverse.filter (· ≠ ix.root)).map ix.rawName, ?_, ?_⟩
    · rw [← foldl_pushComponent_names, before]
    · rw [← foldl_pushComponent_names, after]
  · rw [← adds _ old, before]
  · rw [← adds _ new, after]

end Move

section Nested

variable {ix : VolumeIndex}

def innerRecord : ParsedUsnRecord where
  majorVersion := 2
  frn := ⟨0x0001000000000007⟩
  parentFrn := folderRecord.frn
  usn := 0
  timestampFt := 0
  reason := UsnReason.fileCreate
  attributes := 0
  name := [0x78]
  nameLossy := false

def nestFrn : Nat → Frn
  | 0 => ntfsRootFrn
  | i + 1 => ⟨0x0001000000000008 + UInt64.ofNat i⟩

def nestSlot : Nat → EntryIdx
  | 0 => 0
  | i + 1 => 4 + i

def nestRecord (i : Nat) : ParsedUsnRecord where
  majorVersion := 2
  frn := nestFrn (i + 1)
  parentFrn := nestFrn i
  usn := 0
  timestampFt := 0
  reason := UsnReason.fileCreate
  attributes := fileAttributeDirectory
  name := [0x64]
  nameLossy := false

def nested (n : Nat) : VolumeIndex :=
  letI := ascii
  (range n).foldl (fun ix i => ix.insertEnum (nestRecord i)) (folderIndex.insertEnum innerRecord)

def moveRecord (n : Nat) : ParsedUsnRecord :=
  { folderRecord with reason := UsnReason.renameNewName, parentFrn := nestFrn n }

structure Nested (n : Nat) (ix : VolumeIndex) : Prop where
  reachable : letI := ascii; Reachable ntfsRootFrn ix
  free : ix.entries.free = []
  capacity : ix.entries.capacity = 4 + n
  unseen : ∀ r, 8 + n ≤ r → ix.byFrn.get r = none
  last : ix.headOf (nestFrn n) = some (nestSlot n)
  lastLive : ix.Live (nestSlot n)
  deep : ascend ix.entries.parent n (nestSlot n) = some 0
  outside : ∀ k, ascend ix.entries.parent k (nestSlot n) ≠ some 2
  root : ix.entries.parent 0 = none
  live : ix.Live 0 ∧ ix.Live 2 ∧ ix.Live 3
  folder : ix.headOf folderRecord.frn = some 2 ∧ ix.entries.nextLink 2 = none ∧ ix.entries.parent 2 = some 0 ∧
    (ix.entries.flags 2).dir = true
  file : ix.entries.parent 3 = some 2

omit [Externals] in
theorem recordNumber_nestFrn {i : Nat} (small : i < 5000) : (nestFrn (i + 1)).recordNumber = 8 + i := by
  have mask : (0x0000FFFFFFFFFFFF : UInt64).toNat = 2 ^ 48 - 1 := rfl
  have base : (0x0001000000000008 : UInt64).toNat = 2 ^ 48 + 8 := rfl
  simp only [nestFrn, Frn.recordNumber, UInt64.toNat_and, mask, Nat.and_two_pow_sub_one_eq_mod, UInt64.toNat_add, base,
    UInt64.toNat_ofNat']
  omega

omit [Externals] in
theorem Nested.empty : Nested 0 (nested 0) := by
  let _ := ascii
  have map : (nested 0).byFrn = .sparse [(7, 3), (6, 2), (5, 0)] := by rfl
  have root : (nested 0).entries.parent 0 = none := by decide
  refine ⟨.step (.insertEnum innerRecord) reachable_folderIndex trivial, by decide, by decide, fun r past => ?_, by decide,
    by decide, rfl, fun k => ?_, root, by decide, by decide, by decide⟩
  · have seven : (r == 7) = false := beq_false_of_ne (by omega)
    have six : (r == 6) = false := beq_false_of_ne (by omega)
    have five : (r == 5) = false := beq_false_of_ne (by omega)
    simp [map, FrnMap.get, List.lookup_cons, seven, six, five]
  · cases k with
    | zero => simp [nestSlot]
    | succ k => simp [nestSlot, ascend_succ, root]

omit [Externals] in
theorem Nested.insertEnum (nested : Nested n ix) (small : n < 5000) :
    letI := ascii; Nested (n + 1) (ix.insertEnum (nestRecord n)) := by
  let _ := ascii
  have record : (nestRecord n).frn.recordNumber = 8 + n := recordNumber_nestFrn small
  have unseen : ix.byFrn.get (nestRecord n).frn.recordNumber = none := nested.unseen _ (by omega)
  have slot : ix.entries.nextSlot = nestSlot (n + 1) := by simp [EntryTable.nextSlot, nested.free, nested.capacity, nestSlot]
  have added := nested.reachable.invariant.integrity.newEntry (nestRecord n).frn (nestRecord n).name
    { dir := (nestRecord n).isDir, nonUnicodeName := (nestRecord n).nameLossy } sizeUnknown mtimeUnknown nested.lastLive rfl
  have known : ix.headOf (nestRecord n).parentFrn = some (nestSlot n) := nested.last
  have inserted := upsertLink_unseen unseen known (nestRecord n).name (nestRecord n).nameLossy (nestRecord n).isDir
  have reachable : Reachable ntfsRootFrn (ix.insertEnum (nestRecord n)) :=
    .step (.insertEnum (nestRecord n)) nested.reachable trivial
  rw [VolumeIndex.insertEnum, inserted] at reachable ⊢
  set new := ix.newEntry (nestRecord n).frn (nestSlot n) (nestRecord n).name
    { dir := (nestRecord n).isDir, nonUnicodeName := (nestRecord n).nameLossy } sizeUnknown mtimeUnknown
  set placed := new.1.dirIndexInsert new.2
  have slotNew : new.2 = nestSlot (n + 1) := slot
  rw [slotNew] at added
  obtain ⟨rootLive, folderLive, fileLive⟩ := nested.live
  obtain ⟨found, next, parent, isDir⟩ := nested.folder
  -- the ways up of the entries that were there are as they were
  have ways : ∀ k, ascend placed.entries.parent k (nestSlot n) = ascend ix.entries.parent k (nestSlot n) := fun k =>
    ascend_congr fun j _ x at_ => added.parents x (nested.reachable.invariant.integrity.ascend_live nested.lastLive at_)
  refine ⟨reachable, ?_, ?_, fun r past => ?_, ?_, (added.live _).mpr (.inr rfl), ?_, fun k => ?_, ?_, ⟨?_, ?_, ?_⟩, ⟨?_, ?_, ?_, ?_⟩, ?_⟩
  · show ix.entries.free.tail = []
    rw [nested.free]
    rfl
  · show (if ix.entries.free.isEmpty then ix.entries.capacity + 1 else ix.entries.capacity) = _
    rw [nested.free, nested.capacity]
    rfl
  · rw [FrnMap.get_set, if_neg (by omega)]
    exact nested.unseen r (by omega)
  · refine headOf_some_iff.mpr ⟨?_, added.entry.frn⟩
    rw [FrnMap.get_set, if_pos (show (nestFrn (n + 1)).recordNumber = (nestRecord n).frn.recordNumber from rfl), slotNew]
  · show ascend placed.entries.parent (n + 1) (nestSlot (n + 1)) = some 0
    rw [ascend_succ, added.entry.parent, bind_some, ways, nested.deep]
  · cases k with
    | zero =>
      intro same
      have impossible : 4 + n = 2 := some.inj same
      omega
    | succ k =>
      show ascend placed.entries.parent (k + 1) (nestSlot (n + 1)) ≠ some 2
      rw [ascend_succ, added.entry.parent, bind_some, ways]
      exact nested.outside k
  · exact (added.parents 0 rootLive).trans nested.root
  · exact (added.live 0).mpr (.inl rootLive)
  · exact (added.live 2).mpr (.inl folderLive)
  · exact (added.live 3).mpr (.inl fileLive)
  · obtain ⟨first, mine⟩ := headOf_some_iff.mp found
    refine headOf_some_iff.mpr ⟨?_, (added.same 2 folderLive).frn.trans mine⟩
    rw [FrnMap.get_set, if_neg, first]
    intro same
    rw [same, unseen] at first
    cases first
  · exact (added.same 2 folderLive).nextLink.trans next
  · exact (added.parents 2 folderLive).trans parent
  · exact (congrArg EntryFlags.dir (added.same 2 folderLive).flags).trans isDir
  · exact (added.parents 3 fileLive).trans nested.file

omit [Externals] in
theorem nested_holds (small : n ≤ 5000) : Nested n (nested n) := by
  induction n with
  | zero => exact .empty
  | succ n ih =>
    have grown := (ih (by omega)).insertEnum (by omega)
    unfold nested at grown ⊢
    rw [range_succ, foldl_concat]
    exact grown

omit [Externals] in
theorem Nested.links (nested : Nested n ix) : ix.links folderRecord.frn = [2] := by
  obtain ⟨found, next, -⟩ := nested.folder
  have walked : walk ix.entries.nextLink (3 + n + 1) (some 2) = [2] := by
    rw [walk, next]
    cases n <;> rfl
  rw [VolumeIndex.links, found]
  simp only [linksFrom, nested.capacity]
  rw [show 4 + n = 3 + n + 1 by omega, walked]

omit [Externals] in
theorem Nested.ascend_file (nested : Nested n ix) : ascend ix.entries.parent 2 3 = some 0 := by
  rw [ascend_succ, nested.file, bind_some, ascend_one]
  exact nested.folder.2.2.1

omit [Externals] in
theorem Nested.pathOf_file (nested : Nested n ix) : (ix.pathOf 3 []).1 = .ok := by
  let _ := ascii
  have apart := nested.reachable.invariant.integrity.apart
  rw [nested.reachable.root_eq] at apart
  have tops : ix.Tops 3 0 := ⟨⟨2, by decide, nested.ascend_file⟩, nested.root⟩
  rw [tops.pathOf nested.live.2.2, if_neg apart]

omit [Externals] in
theorem moveRecord_named (n : Nat) : (moveRecord n).has (UsnReason.renameNewName ||| UsnReason.fileCreate) = true ∧
    (moveRecord n).has UsnReason.fileDelete = false := by
  have bits : UsnReason.renameNewName &&& (UsnReason.renameNewName ||| UsnReason.fileCreate) ≠ 0 ∧
      UsnReason.renameNewName &&& UsnReason.fileDelete = 0 := by decide
  simp [ParsedUsnRecord.has, moveRecord, bits]

omit [Externals] in
theorem Nested.moved (nested : Nested n ix) :
    letI := ascii; Moved ix 2 (nestSlot n) (ix.applyBatch [moveRecord n]).1 := by
  let _ := ascii
  have single : ix.links (moveRecord n).frn = [2] := nested.links
  obtain ⟨named, kept⟩ := moveRecord_named n
  exact (nested.reachable.invariant.moved_applyBatch named kept single nested.last).1

omit [Externals] in
theorem Nested.ascend_moved (nested : Nested n ix) :
    letI := ascii; ascend (ix.applyBatch [moveRecord n]).1.entries.parent (n + 2) 3 = some 0 := by
  let _ := ascii
  have moved := nested.moved
  have way := moved.sameWay nested.reachable.invariant.integrity nested.lastLive nested.outside
  have file := (moved.same 3 nested.live.2.2 (by decide)).2
  rw [Nat.add_comm, ascend_add]
  have first : ascend (ix.applyBatch [moveRecord n]).1.entries.parent 2 3 = some (nestSlot n) := by
    rw [ascend_succ, file, nested.file, bind_some, ascend_one, moved.home]
  rw [first, bind_some, ascend_congr fun j _ x at_ => way.parent j x at_, nested.deep]

end Nested

end Goz.VolumeIndex
