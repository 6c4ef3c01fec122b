import Goz.Index.Integrity

namespace Goz.VolumeIndex

open Function Intrusive

variable {ix : VolumeIndex} {parent : EntryIdx} {name : Bytes} [Externals] {ix' : VolumeIndex}

structure EntryIs (ix : VolumeIndex) (e : EntryIdx) (frn : Frn) (parent : EntryIdx) (name : Bytes)
    (flags : EntryFlags) (size : UInt64) (mtime : Int64) (nextLink : Option EntryIdx) : Prop where
  frn : ix.entries.frn e = frn
  parent : ix.entries.parent e = some parent
  rawName : ix.rawName e = name
  flags : ix.entries.flags e = flags
  size : ix.entries.size e = size
  mtime : ix.entries.mtime e = mtime
  nextLink : ix.entries.nextLink e = nextLink

omit [Externals] in
theorem headless {held : EntryIdx → Prop} {names : NameStore}
    {nextSame prevSame : EntryIdx → Option EntryIdx} {nameId : EntryIdx → NameId} {bearers : NameId → List EntryIdx}
    (chains : Buckets nextSame prevSame names.head (fun e => some (nameId e)) held bearers)
    (counts : ∀ id, names.refcount id = (bearers id).length) (id : NameId) (dead : names.refcount id = 0) :
    names.head id = none := by
  have empty : bearers id = [] := List.eq_nil_of_length_eq_zero ((counts id).symm.trans dead)
  rw [(chains.chain id).linked.head, empty]
  rfl

section Add

variable {frn : Frn} {flags : EntryFlags} {size : UInt64} {mtime : Int64}

/-- What an allocation does: one more live entry, with these fields. -/
structure Added (ix : VolumeIndex) (frn : Frn) (parent : EntryIdx) (name : Bytes) (flags : EntryFlags)
    (size : UInt64) (mtime : Int64) (ix' : VolumeIndex) (idx : EntryIdx) : Prop where
  integrity : ix'.Integrity
  frame : SameFrame ix ix'
  byFrn : ix'.byFrn = ix.byFrn
  suspects : ix'.cycleSuspects = ix.cycleSuspects
  fresh : ¬ ix.Live idx
  live : ∀ e, ix'.Live e ↔ ix.Live e ∨ e = idx
  same : ∀ e, ix.Live e → SameEntry ix ix' e
  parents : ∀ e, ix.Live e → ix'.entries.parent e = ix.entries.parent e
  entry : EntryIs ix' idx frn parent name flags size mtime none

omit [Externals] in
theorem linkChild_eq (ix : VolumeIndex) (idx parent : EntryIdx) (at_ : ix.entries.parent idx = some parent) :
    ix.linkChild idx =
      { ix with
        entries := { ix.entries with
          nextChild := pushNext ix.entries.nextChild (ix.entries.firstChild parent) idx
          prevChild := pushPrev ix.entries.prevChild (ix.entries.firstChild parent) idx
          firstChild := update ix.entries.firstChild parent (some idx) } } := by
  simp [linkChild, at_]

theorem Integrity.newEntry (ok : ix.Integrity) (frn : Frn) (name : Bytes) (flags : EntryFlags) (size : UInt64)
    (mtime : Int64) (parentLive : ix.Live parent) (alive : flags.tombstone = false) :
    Added ix frn parent name flags size mtime
      ((ix.newEntry frn parent name flags size mtime).1.dirIndexInsert (ix.newEntry frn parent name flags size mtime).2)
      (ix.newEntry frn parent name flags size mtime).2 := by
  obtain ⟨bearers, chains, counts⟩ := ok.bearers
  obtain ⟨kids, tree⟩ := ok.tree
  have interned := ok.names.intern name
  have heads := interned.head (headless chains counts)
  set names := (ix.names.intern name).1
  set id := (ix.names.intern name).2
  set idx := ix.entries.nextSlot
  set t := (ix.entries.alloc frn (some parent) id flags size mtime none).1
  have fresh : ¬ ix.Live idx := ok.slots.nextSlot_dead
  have live : ∀ e, t.Live e ↔ ix.Live e ∨ e = idx := EntryTable.live_alloc alive
  have ne : ∀ e, ix.Live e → e ≠ idx := fun e there same => fresh (same ▸ there)
  have linked : (ix.newEntry frn parent name flags size mtime).1 =
      { ix with
        names := names.setChainHead id (some idx)
        entries := { t with
          nextSame := pushNext t.nextSame (names.head id) idx
          prevSame := pushPrev t.prevSame (names.head id) idx
          nextChild := pushNext t.nextChild (t.firstChild parent) idx
          prevChild := pushPrev t.prevChild (t.firstChild parent) idx
          firstChild := update t.firstChild parent (some idx) } } := by
    show linkChild _ idx = _
    rw [linkChild_eq _ idx parent (update_self ..)]
    rfl
  show Added ix frn parent name flags size mtime ((ix.newEntry frn parent name flags size mtime).1.dirIndexInsert idx) idx
  rw [linked]
  set linkedIn : VolumeIndex := { ix with names := _, entries := _ }
  set final := linkedIn.dirIndexInsert idx
  have same : ∀ e, ix.Live e → SameEntry ix final e := by
    intro e there
    have at_ : final.entries.nameId e = ix.entries.nameId e := update_of_ne (ne e there) _ _
    have bytes := interned.same _ (ok.name_live there)
    refine ⟨update_of_ne (ne e there) _ _, update_of_ne (ne e there) _ _, update_of_ne (ne e there) _ _,
      update_of_ne (ne e there) _ _, update_of_ne (ne e there) _ _, ?_, ?_⟩
    · rw [rawName, at_]
      exact bytes.1
    · rw [foldedName, at_]
      exact bytes.2
  have parent_eq : ∀ e, ix.Live e → final.entries.parent e = ix.entries.parent e := fun e there => update_of_ne (ne e there) _ _
  have own : final.entries.parent idx = some parent := update_self ..
  -- no live entry had the dead slot as its parent, so its child chain was empty
  have childless : ix.entries.firstChild idx = none :=
    tree.empty_head fun e there at_ => fresh (ok.parent_live e idx there at_)
  have tree' : Buckets t.nextChild t.prevChild t.firstChild t.parent ix.Live kids := by
    refine tree.congr (fun _ => Iff.rfl) ?_ ?_ ?_ fun k => congrFun (update_eq_self_iff.mpr childless.symm) k
    all_goals exact fun e there => update_of_ne (ne e there) _ _
  have chains' : Buckets t.nextSame t.prevSame names.head (fun e => some (t.nameId e)) ix.Live bearers := by
    refine chains.congr (fun _ => Iff.rfl) ?_ ?_ ?_ fun k => congrFun heads k
    · exact fun e there => update_of_ne (ne e there) _ _
    · exact fun e there => update_of_ne (ne e there) _ _
    · exact fun e there => congrArg some (update_of_ne (ne e there) _ _)
  have pushedTree := tree'.push idx parent fresh (update_self ..)
  have pushedChains := chains'.push idx id fresh (congrArg some (update_self ..))
  refine ⟨ok.rebuilt ⟨rfl, rfl, rfl⟩ ?_ (setChainHead_wf interned.wf _ _) ?_ ?_ ?_ ⟨(live _).mpr (.inl ok.lost_live), ?_⟩ fun e there => ?_,
    ⟨rfl, rfl, rfl⟩, rfl, rfl, fresh, live, same, parent_eq, ⟨update_self .., own, ?_, update_self .., update_self .., update_self .., update_self ..⟩⟩
  · exact EntryTable.Slots.of_same (t := t) (ok.slots.alloc _ _ _ _ _ _ _ alive) (fun _ => rfl) rfl rfl rfl
  · exact ⟨_, pushedTree.congr_held live⟩
  · refine ⟨_, pushedChains.congr_held live, fun other => ?_⟩
    show names.refcount other = _
    rw [interned.refcount]
    by_cases here : other = id <;> simp [here, counts]
  · have placed : linkedIn.ScopeExact ix.Live := by
      refine ok.scope.congr rfl (fun _ => Iff.rfl) (fun e there => ?_) fun e there => ?_
      · unfold indexed
        rw [show linkedIn.entries.flags e = ix.entries.flags e from (same e there).flags]
      · exact Prod.ext (parent_eq e there) (congrArg Externals.fxHash (same e there).foldedName)
    exact (placed.insert fresh).congr rfl live (fun _ _ => rfl) fun _ _ => rfl
  · rw [parent_eq _ ok.lost_live, ok.lost_top]
  · rcases (live e).mp there with there | rfl
    · rw [parent_eq e there]
      cases above : ix.entries.parent e with
      | none => exact .inr ⟨there, rfl, rfl⟩
      | some p => exact .inl ⟨p, rfl, (live p).mpr (.inl (ok.parent_live e p there above))⟩
    · exact .inl ⟨parent, own, (live parent).mpr (.inl parentLive)⟩
  · rw [rawName, show final.entries.nameId idx = id from update_self ..]
    exact interned.bytes

theorem Added.others {idx : EntryIdx} (added : Added ix frn parent name flags size mtime ix' idx) (e : EntryIdx) :
    ix'.Live e ∧ (ix'.entries.frn e).recordNumber ≠ frn.recordNumber ↔
      ix.Live e ∧ (ix.entries.frn e).recordNumber ≠ frn.recordNumber := by
  rw [added.live]
  constructor
  · rintro ⟨live | rfl, away⟩
    · exact ⟨live, (added.same e live).frn ▸ away⟩
    · exact absurd (by rw [added.entry.frn]) away
  · rintro ⟨live, away⟩
    exact ⟨.inl live, (added.same e live).frn.symm ▸ away⟩

end Add

variable {idx : EntryIdx}

/-- What the new name of a live entry changes: the name store and the name columns. -/
structure Renamed (ix : VolumeIndex) (idx : EntryIdx) (name : Bytes) (ix' : VolumeIndex) : Prop where
  names : ix'.names.Wf
  bearers : ∃ bearers, Buckets ix'.entries.nextSame ix'.entries.prevSame ix'.names.head
    (fun e => some (ix'.entries.nameId e)) ix.Live bearers ∧ ∀ id, ix'.names.refcount id = (bearers id).length
  rawName : ix'.rawName idx = name
  raw_same : ∀ e, ix.Live e → e ≠ idx → ix'.rawName e = ix.rawName e
  folded_same : ∀ e, ix.Live e → e ≠ idx → ix'.foldedName e = ix.foldedName e

theorem Integrity.rename (ok : ix.Integrity) (live : ix.Live idx) (name : Bytes) :
    Renamed ix idx name (ix.rename idx name) := by
  obtain ⟨bearers, chains, counts⟩ := ok.bearers_unlink live
  have released := (setChainHead_wf ok.names (ix.entries.nameId idx)
    (unlinkHead ix.entries.nextSame ix.entries.prevSame (ix.names.head (ix.entries.nameId idx)) idx)).release
    (ix.entries.nameId idx) (ok.name_live live)
  set freed := ((ix.names.setChainHead (ix.entries.nameId idx)
    (unlinkHead ix.entries.nextSame ix.entries.prevSame (ix.names.head (ix.entries.nameId idx)) idx)).release
    (ix.entries.nameId idx))
  have counts' : ∀ id, freed.refcount id = (bearers id).length := fun id =>
    (congrFun released.refcount id).trans (counts id)
  have chains' : Buckets (ix.unlinkSameName idx).entries.nextSame (ix.unlinkSameName idx).entries.prevSame freed.head
      (fun e => some (ix.entries.nameId e)) (fun e => ix.Live e ∧ e ≠ idx) bearers :=
    chains.congr (fun _ => Iff.rfl) (fun _ _ => rfl) (fun _ _ => rfl) (fun _ _ => rfl) fun k => congrFun released.head k
  have interned := released.wf.intern name
  have heads := interned.head (headless chains' counts')
  set names := (freed.intern name).1
  set id := (freed.intern name).2
  have renamed : Buckets (ix.unlinkSameName idx).entries.nextSame (ix.unlinkSameName idx).entries.prevSame names.head
      (fun e => some (update ix.entries.nameId idx id e)) (fun e => ix.Live e ∧ e ≠ idx) bearers :=
    chains'.congr (fun _ => Iff.rfl) (fun _ _ => rfl) (fun _ _ => rfl)
      (fun e there => congrArg some (update_of_ne there.2 _ _)) fun k => congrFun heads k
  have pushed := renamed.push idx id (fun there => there.2 rfl) (congrArg some (update_self ..))
  -- a name some other entry bears outlives the release
  have kept : ∀ e, ix.Live e → e ≠ idx → NameStore.SameBytes ix.names names (ix.entries.nameId e) := by
    intro e there ne
    have mem : e ∈ bearers (ix.entries.nameId e) := (chains.mem _ _).mpr ⟨⟨there, ne⟩, rfl⟩
    have alive : freed.Live (ix.entries.nameId e) := by
      rw [NameStore.Live, counts']
      exact List.length_pos_of_mem mem
    have first := released.same _ alive
    have second := interned.same _ alive
    exact ⟨second.1.trans first.1, second.2.trans first.2⟩
  have other : ∀ e, e ≠ idx → (ix.rename idx name).entries.nameId e = ix.entries.nameId e := fun e ne =>
    update_of_ne ne _ _
  have own : (ix.rename idx name).entries.nameId idx = id := update_self ..
  refine ⟨setChainHead_wf interned.wf _ _, ?_, ?_, ?_, ?_⟩
  · refine ⟨_, pushed.congr_held (fun e => ?_), fun k => ?_⟩
    · by_cases same : e = idx
      · simp [same, live]
      · simp [same]
    · show names.refcount k = _
      rw [interned.refcount]
      by_cases here : k = id
      · simp [here, counts']
      · simp [here, counts']
  · rw [rawName, own]
    exact interned.bytes
  · intro e there ne
    rw [rawName, other e ne]
    exact (kept e there ne).1
  · intro e there ne
    rw [foldedName, other e ne]
    exact (kept e there ne).2

omit [Externals] in
theorem isAtOrBelow_congr (ix ix' : VolumeIndex) (parent : ix'.entries.parent = ix.entries.parent)
    (root : ix'.root = ix.root) (lostFound : ix'.lostFound = ix.lostFound) (node : Option EntryIdx)
    (ancestor : EntryIdx) : ix'.isAtOrBelow node ancestor = ix.isAtOrBelow node ancestor := by
  have within : ∀ hops node, ix'.isAtOrBelowWithin hops node ancestor = ix.isAtOrBelowWithin hops node ancestor := by
    intro hops
    induction hops with
    | zero => exact fun _ => rfl
    | succ hops ih =>
      intro node
      cases node with
      | none => rfl
      | some idx => simp only [isAtOrBelowWithin, parent, root, lostFound, ih]
  exact within maxPathHops node

/-- What rewriting a live entry does: its name, parent and flags are new, and nothing else changes. -/
structure Rewritten (ix : VolumeIndex) (idx parent : EntryIdx) (name : Bytes) (nameLossy isDir : Bool)
    (ix' : VolumeIndex) : Prop where
  integrity : ix'.Integrity
  frame : SameFrame ix ix'
  byFrn : ix'.byFrn = ix.byFrn
  suspects : ix'.cycleSuspects =
    if ix.isAtOrBelow (some parent) idx && !ix.cycleSuspects.contains idx then ix.cycleSuspects ++ [idx]
    else ix.cycleSuspects
  live : ∀ e, ix'.Live e ↔ ix.Live e
  same : ∀ e, ix.Live e → e ≠ idx → SameEntry ix ix' e
  parents : ∀ e, ix.Live e → e ≠ idx → ix'.entries.parent e = ix.entries.parent e
  entry : EntryIs ix' idx (ix.entries.frn idx) parent name
    { ix.entries.flags idx with dir := isDir, nonUnicodeName := nameLossy, placeholder := false }
    (ix.entries.size idx) (ix.entries.mtime idx) (ix.entries.nextLink idx)

theorem Integrity.rewriteEntry (ok : ix.Integrity) (live : ix.Live idx) (notLost : idx ≠ ix.lostFound)
    (parentLive : ix.Live parent) (name : Bytes) (nameLossy isDir : Bool) :
    Rewritten ix idx parent name nameLossy isDir (ix.rewriteEntry idx parent name nameLossy isDir) := by
  obtain ⟨wf, ⟨lists, chains, counts⟩, own, rawSame, foldedSame⟩ := ok.rename live name
  obtain ⟨kids, tree⟩ := ok.tree_unlink live
  set detached := ((((ix.dirIndexRemove idx).rename idx name).noteCycle idx parent).unlinkChild idx).setParent idx parent
  have tree' : Buckets detached.entries.nextChild detached.entries.prevChild detached.entries.firstChild
      detached.entries.parent (fun e => ix.Live e ∧ e ≠ idx) kids :=
    tree.congr (fun _ => Iff.rfl) (fun _ _ => rfl) (fun _ _ => rfl) (fun e there => update_of_ne there.2 _ _) fun _ => rfl
  have pushed := tree'.push idx parent (fun there => there.2 rfl) (update_self ..)
  have linked := linkChild_eq detached idx parent (update_self ..)
  set moved := detached.linkChild idx
  set final := ix.rewriteEntry idx parent name nameLossy isDir
  have dead : ∀ e, final.entries.isTombstone e = ix.entries.isTombstone e := by
    intro e
    show (update ix.entries.flags idx
      { ix.entries.flags idx with dir := isDir, nonUnicodeName := nameLossy, placeholder := false } e).tombstone = _
    by_cases here : e = idx <;> simp [here, EntryTable.isTombstone]
  have live' : ∀ e, final.Live e ↔ ix.Live e := fun e => by rw [Live, Live, EntryTable.Live, EntryTable.Live, dead]
  have back : ∀ e, final.Live e ↔ (ix.Live e ∧ e ≠ idx) ∨ e = idx := by
    intro e
    rw [live' e]
    by_cases here : e = idx <;> simp [here, live]
  have parents : ∀ e, ix.Live e → e ≠ idx → final.entries.parent e = ix.entries.parent e := fun e _ ne => update_of_ne ne _ _
  have own_parent : final.entries.parent idx = some parent := update_self ..
  refine ⟨ok.rebuilt ⟨rfl, rfl, rfl⟩ (ok.slots.of_same dead rfl rfl rfl) wf ?_ ?_ ?_ ⟨(live' _).mpr ok.lost_live, ?_⟩ fun e there => ?_,
    ⟨rfl, rfl, rfl⟩, rfl, ?_, live',
    fun e there ne => ⟨rfl, update_of_ne ne _ _, rfl, rfl, rfl, rawSame e there ne, foldedSame e there ne⟩, parents,
    ⟨rfl, own_parent, own, update_self .., rfl, rfl, rfl⟩⟩
  · refine ⟨_, pushed.congr back (fun e _ => ?_) (fun e _ => ?_) (fun _ _ => rfl) fun k => ?_⟩
    · show moved.entries.nextChild e = _
      rw [linked]
    · show moved.entries.prevChild e = _
      rw [linked]
    · show moved.entries.firstChild k = _
      rw [linked]
  · exact ⟨lists, chains.congr_held live', counts⟩
  · have away : moved.ScopeExact (fun e => ix.Live e ∧ e ≠ idx) := by
      refine (ok.scope.remove idx).congr rfl (fun _ => Iff.rfl) (fun _ _ => rfl) fun e there => ?_
      exact Prod.ext (update_of_ne there.2 _ _) (congrArg Externals.fxHash (foldedSame e there.1 there.2))
    have flagged : (moved.reflag idx nameLossy isDir).ScopeExact (fun e => ix.Live e ∧ e ≠ idx) := by
      refine away.congr rfl (fun _ => Iff.rfl) (fun e there => ?_) fun _ _ => rfl
      unfold indexed
      rw [show (moved.reflag idx nameLossy isDir).entries.flags e = moved.entries.flags e from update_of_ne there.2 _ _]
      rfl
    exact (flagged.insert (fun there => there.2 rfl)).congr rfl back (fun _ _ => rfl) fun _ _ => rfl
  · rw [parents _ ok.lost_live notLost.symm, ok.lost_top]
  · rcases (back e).mp there with ⟨alive, ne⟩ | rfl
    · rw [parents e alive ne]
      cases above : ix.entries.parent e with
      | none => exact .inr ⟨alive, rfl, rfl⟩
      | some p => exact .inl ⟨p, rfl, (live' p).mpr (ok.parent_live e p alive above)⟩
    · exact .inl ⟨parent, own_parent, (live' parent).mpr parentLive⟩
  · have walked := isAtOrBelow_congr ix ((ix.dirIndexRemove idx).rename idx name) rfl rfl rfl (some parent) idx
    rw [← walked]
    rfl

theorem Rewritten.frn_next {nameLossy isDir : Bool} (rewritten : Rewritten ix idx parent name nameLossy isDir ix')
    {e : EntryIdx} (there : ix.Live e) : ix'.entries.frn e = ix.entries.frn e ∧ ix'.entries.nextLink e = ix.entries.nextLink e := by
  by_cases same : e = idx
  · exact same ▸ ⟨rewritten.entry.frn, rewritten.entry.nextLink⟩
  · exact ⟨(rewritten.same e there same).frn, (rewritten.same e there same).nextLink⟩

end Goz.VolumeIndex
