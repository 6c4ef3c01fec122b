import Goz.Index.EntryTable
import Goz.Index.FrnMap
import Goz.Index.NameStore
import Goz.Library.Multimap
import Goz.Usn.Ops

namespace Goz

open Function Intrusive

def ntfsRootFrn : Frn := ⟨0x0005000000000005⟩

def lostFoundName : Bytes := [0x24, 0x4C, 0x6F, 0x73, 0x74, 0x46, 0x6F, 0x75, 0x6E, 0x64]

def placeholderName : Bytes :=
  [0x24, 0x50, 0x6C, 0x61, 0x63, 0x65, 0x68, 0x6F, 0x6C, 0x64, 0x65, 0x72]

def lostFoundFrn : Frn := ⟨0xFFFFFFFFFFFFFFFF⟩

def maxPathHops : Nat := 4096

structure WtfName where
  bytes : Bytes
  lossy : Bool
  deriving DecidableEq, Repr

structure LinkTarget where
  parent : EntryIdx
  name : WtfName
  deriving DecidableEq, Repr

inductive PathStatus
  | ok | inLostFound | cycleDetected | removed
  deriving DecidableEq, Repr

inductive Anomaly
  | deleteOfUnknown (frn : Frn)
  deriving DecidableEq, Repr

structure IndexStats where
  placeholdersCreated : Nat := 0
  deleteOfUnknown : Nat := 0
  renameOldSeen : Nat := 0
  staleSlots : Nat := 0

structure ApplyOutcome where
  needsStat : List Frn := []
  needsLinkReconcile : List Frn := []
  anomalies : List Anomaly := []
  wantsCompact : Bool := false

inductive UpsertResult
  | ok | needsReconcile
  deriving DecidableEq, Repr

abbrev ScopeKey := Option EntryIdx × UInt64

structure VolumeIndex where
  entries : EntryTable
  names : NameStore
  byFrn : FrnMap
  root : EntryIdx
  lostFound : EntryIdx
  generation : Nat
  stats : IndexStats
  dirty : Nat
  dirChildren : ScopeKey → Option (List EntryIdx)
  cycleSuspects : List EntryIdx

namespace VolumeIndex

variable [Externals]

def Live (ix : VolumeIndex) (e : EntryIdx) : Prop := ix.entries.Live e

instance (ix : VolumeIndex) (e : EntryIdx) : Decidable (ix.Live e) := inferInstanceAs (Decidable (ix.entries.Live e))

def rawName (ix : VolumeIndex) (idx : EntryIdx) : Bytes := ix.names.rawBytes (ix.entries.nameId idx)

def foldedName (ix : VolumeIndex) (idx : EntryIdx) : Bytes := ix.names.foldedBytesOf (ix.entries.nameId idx)

def linkSameName (ix : VolumeIndex) (idx : EntryIdx) (id : NameId) : VolumeIndex :=
  { ix with
    entries := { ix.entries with
      nextSame := pushNext ix.entries.nextSame (ix.names.head id) idx
      prevSame := pushPrev ix.entries.prevSame (ix.names.head id) idx }
    names := ix.names.setChainHead id (some idx) }

def unlinkSameName (ix : VolumeIndex) (idx : EntryIdx) : VolumeIndex :=
  let id := ix.entries.nameId idx
  { ix with
    entries := { ix.entries with
      nextSame := unlinkNext ix.entries.nextSame ix.entries.prevSame idx
      prevSame := unlinkPrev ix.entries.nextSame ix.entries.prevSame idx }
    names := ix.names.setChainHead id (unlinkHead ix.entries.nextSame ix.entries.prevSame (ix.names.head id) idx) }

def linkChild (ix : VolumeIndex) (idx : EntryIdx) : VolumeIndex :=
  let t := ix.entries
  { ix with
    entries := { t with
      nextChild :=
        match t.parent idx with
        | none => t.nextChild
        | some parent => pushNext t.nextChild (t.firstChild parent) idx
      prevChild :=
        match t.parent idx with
        | none => t.prevChild
        | some parent => pushPrev t.prevChild (t.firstChild parent) idx
      firstChild :=
        match t.parent idx with
        | none => t.firstChild
        | some parent => update t.firstChild parent (some idx) } }

def unlinkChild (ix : VolumeIndex) (idx : EntryIdx) : VolumeIndex :=
  let t := ix.entries
  { ix with
    entries := { t with
      nextChild :=
        match t.parent idx with
        | none => t.nextChild
        | some _ => unlinkNext t.nextChild t.prevChild idx
      prevChild :=
        match t.parent idx with
        | none => t.prevChild
        | some _ => unlinkPrev t.nextChild t.prevChild idx
      firstChild :=
        match t.parent idx with
        | none => t.firstChild
        | some parent =>
          update t.firstChild parent (unlinkHead t.nextChild t.prevChild (t.firstChild parent) idx) } }

def setParent (ix : VolumeIndex) (idx parent : EntryIdx) : VolumeIndex :=
  { ix with entries := { ix.entries with parent := update ix.entries.parent idx (some parent) } }

def indexed (ix : VolumeIndex) (idx : EntryIdx) : Bool :=
  (ix.entries.flags idx).dir && !(ix.entries.flags idx).placeholder && idx ≠ ix.root && idx ≠ ix.lostFound

def scopeKey (ix : VolumeIndex) (idx : EntryIdx) : ScopeKey :=
  (ix.entries.parent idx, Externals.fxHash (ix.foldedName idx))

def dirIndexInsert (ix : VolumeIndex) (idx : EntryIdx) : VolumeIndex :=
  { ix with
    dirChildren :=
      if ix.indexed idx then Multimap.insert ix.dirChildren (ix.scopeKey idx) idx else ix.dirChildren }

def dirIndexRemove (ix : VolumeIndex) (idx : EntryIdx) : VolumeIndex :=
  { ix with
    dirChildren :=
      if (ix.entries.flags idx).dir then Multimap.erase ix.dirChildren (ix.scopeKey idx) idx
      else ix.dirChildren }

def childDir (ix : VolumeIndex) (parent : EntryIdx) (foldedName : Bytes) : Option EntryIdx :=
  (ix.dirChildren (some parent, Externals.fxHash foldedName)).bind fun cands =>
    cands.find? fun d => ix.foldedName d = foldedName

def orphan (ix : VolumeIndex) (cur : EntryIdx) : VolumeIndex :=
  let moved := (((ix.dirIndexRemove cur).setParent cur ix.lostFound).linkChild cur).dirIndexInsert cur
  { moved with dirty := moved.dirty + 1 }

def orphanFrom : Nat → Option EntryIdx → VolumeIndex → VolumeIndex
  | _, none, ix => ix
  | 0, some _, ix => ix
  | fuel + 1, some cur, ix => orphanFrom fuel (ix.entries.nextChild cur) (ix.orphan cur)

/-- The child chain holds distinct slots, so `capacity` turns see all of it. -/
def orphanChildren (ix : VolumeIndex) (dir : EntryIdx) : VolumeIndex :=
  let moved := orphanFrom ix.entries.capacity (ix.entries.firstChild dir) ix
  { moved with entries := { moved.entries with firstChild := update moved.entries.firstChild dir none } }

def freeEntry (ix : VolumeIndex) (idx : EntryIdx) : VolumeIndex :=
  { ix with
    names := ix.names.release (ix.entries.nameId idx)
    entries := ix.entries.tombstone idx
    dirty := ix.dirty + 1 }

def removeEntry (ix : VolumeIndex) (idx : EntryIdx) : VolumeIndex :=
  ((((ix.dirIndexRemove idx).unlinkSameName idx).unlinkChild idx).orphanChildren idx).freeEntry idx

def tombstoneFrom : Nat → Option EntryIdx → VolumeIndex → VolumeIndex
  | _, none, ix => ix
  | 0, some _, ix => ix
  | fuel + 1, some cur, ix => tombstoneFrom fuel (ix.entries.nextLink cur) (ix.removeEntry cur)

def tombstoneChain (ix : VolumeIndex) (head : EntryIdx) : VolumeIndex :=
  tombstoneFrom ix.entries.capacity (some head) ix

def reclaimStaleSlot (ix : VolumeIndex) (record : Nat) (head : EntryIdx) : VolumeIndex :=
  let cleared := ix.tombstoneChain head
  { cleared with
    byFrn := cleared.byFrn.remove record
    stats := { cleared.stats with staleSlots := cleared.stats.staleSlots + 1 } }

def reclaimStale (ix : VolumeIndex) (frn : Frn) : VolumeIndex :=
  match ix.byFrn.get frn.recordNumber with
  | none => ix
  | some head => if ix.entries.frn head ≠ frn then ix.reclaimStaleSlot frn.recordNumber head else ix

def headOf (ix : VolumeIndex) (frn : Frn) : Option EntryIdx :=
  (ix.byFrn.get frn.recordNumber).filter fun head => ix.entries.frn head = frn

def deleteFrn (ix : VolumeIndex) (frn : Frn) : VolumeIndex × Bool :=
  match ix.headOf frn with
  | none => (ix, false)
  | some head =>
    let cleared := ix.tombstoneChain head
    ({ cleared with byFrn := cleared.byFrn.remove frn.recordNumber }, true)

/-- An entry for one more name: interns it, takes a slot and links the slot into both chains. -/
def newEntry (ix : VolumeIndex) (frn : Frn) (parent : EntryIdx) (name : Bytes) (flags : EntryFlags)
    (size : UInt64) (mtime : Int64) : VolumeIndex × EntryIdx :=
  let interned := ix.names.intern name
  let slot := ix.entries.alloc frn (some parent) interned.2 flags size mtime none
  let placed := { ix with names := interned.1, entries := slot.1 }
  ((placed.linkSameName slot.2 interned.2).linkChild slot.2, slot.2)

def resolveOrPlaceholderParent (ix : VolumeIndex) (parentFrn : Frn) : VolumeIndex × EntryIdx :=
  match ix.headOf parentFrn with
  | some idx => (ix, idx)
  | none =>
    -- NTFS may have handed the record number to a different file
    let reclaimed := ix.reclaimStale parentFrn
    let new := reclaimed.newEntry parentFrn reclaimed.lostFound placeholderName { dir := true, placeholder := true }
      sizeUnknown mtimeUnknown
    ({ new.1 with
        byFrn := new.1.byFrn.set parentFrn.recordNumber new.2
        stats := { new.1.stats with placeholdersCreated := new.1.stats.placeholdersCreated + 1 }
        dirty := new.1.dirty + 1 }, new.2)

def resolveLinkParent (ix : VolumeIndex) (frn parentFrn : Frn) : VolumeIndex × EntryIdx :=
  if frn.Stale parentFrn then (ix, ix.lostFound) else ix.resolveOrPlaceholderParent parentFrn

def isAtOrBelowWithin (ix : VolumeIndex) : Nat → Option EntryIdx → EntryIdx → Bool
  | 0, _, _ => false
  | hops + 1, node, ancestor =>
    if node = some ancestor then true
    else
      match node with
      | none => false
      | some idx =>
        if idx = ix.root ∨ idx = ix.lostFound then false
        else ix.isAtOrBelowWithin hops (ix.entries.parent idx) ancestor

def isAtOrBelow (ix : VolumeIndex) (node : Option EntryIdx) (ancestor : EntryIdx) : Bool :=
  ix.isAtOrBelowWithin maxPathHops node ancestor

def pruneCycleSuspects (ix : VolumeIndex) : VolumeIndex :=
  { ix with cycleSuspects := ix.cycleSuspects.filter fun idx => ix.isAtOrBelow (ix.entries.parent idx) idx }

def rename (ix : VolumeIndex) (idx : EntryIdx) (name : Bytes) : VolumeIndex :=
  let unlinked := ix.unlinkSameName idx
  let interned := (unlinked.names.release (unlinked.entries.nameId idx)).intern name
  let renamed :=
    { unlinked with
      names := interned.1
      entries := { unlinked.entries with nameId := update unlinked.entries.nameId idx interned.2 } }
  renamed.linkSameName idx interned.2

def noteCycle (ix : VolumeIndex) (idx parent : EntryIdx) : VolumeIndex :=
  { ix with
    cycleSuspects :=
      if ix.isAtOrBelow (some parent) idx && !ix.cycleSuspects.contains idx then ix.cycleSuspects ++ [idx]
      else ix.cycleSuspects }

/-- Leaves the old parent's child chain while `parent` still points there, then joins the new one's. -/
def reparent (ix : VolumeIndex) (idx parent : EntryIdx) : VolumeIndex :=
  ((ix.unlinkChild idx).setParent idx parent).linkChild idx

def reflag (ix : VolumeIndex) (idx : EntryIdx) (nameLossy isDir : Bool) : VolumeIndex :=
  let flags := { ix.entries.flags idx with dir := isDir, nonUnicodeName := nameLossy, placeholder := false }
  { ix with entries := { ix.entries with flags := update ix.entries.flags idx flags } }

def touch (ix : VolumeIndex) : VolumeIndex := { ix with dirty := ix.dirty + 1 }

def rewriteEntry (ix : VolumeIndex) (idx parent : EntryIdx) (name : Bytes) (nameLossy isDir : Bool) :
    VolumeIndex :=
  let renamed := ((ix.dirIndexRemove idx).rename idx name).noteCycle idx parent
  (((renamed.reparent idx parent).reflag idx nameLossy isDir).dirIndexInsert idx).touch

def upsertLink (ix : VolumeIndex) (frn parentFrn : Frn) (name : Bytes) (nameLossy isDir : Bool) :
    VolumeIndex × UpsertResult :=
  -- reclaimed first, so the parent resolved below is never a slot this frees
  let resolved := (ix.reclaimStale frn).resolveLinkParent frn parentFrn
  match resolved.1.byFrn.get frn.recordNumber with
  | some head =>
    if resolved.1.entries.nextLink head = none then
      (resolved.1.rewriteEntry head resolved.2 name nameLossy isDir, .ok)
    else (resolved.1, .needsReconcile)
  | none =>
    let new := resolved.1.newEntry frn resolved.2 name { dir := isDir, nonUnicodeName := nameLossy }
      sizeUnknown mtimeUnknown
    let mapped := { new.1 with byFrn := new.1.byFrn.set frn.recordNumber new.2 }.dirIndexInsert new.2
    ({ mapped with dirty := mapped.dirty + 1 }, .ok)

def linksFrom (ix : VolumeIndex) (head : EntryIdx) : List EntryIdx :=
  walk ix.entries.nextLink ix.entries.capacity (some head)

def links (ix : VolumeIndex) (frn : Frn) : List EntryIdx :=
  match ix.headOf frn with
  | none => []
  | some head => ix.linksFrom head

def chainHasLink (ix : VolumeIndex) (frn : Frn) (parent : EntryIdx) (name : Bytes) : Bool :=
  (ix.links frn).any fun e => ix.entries.parent e = some parent && ix.rawName e = name

def addLink (ix : VolumeIndex) (frn : Frn) (parent : EntryIdx) (name : Bytes) (nameLossy : Bool) : VolumeIndex :=
  let new := ix.newEntry frn parent name { nonUnicodeName := nameLossy } sizeUnknown mtimeUnknown
  let record := frn.recordNumber
  let linked :=
    match (new.1.byFrn.get record).bind fun head => (new.1.linksFrom head).getLast? with
    | some tail =>
      { new.1 with entries := { new.1.entries with nextLink := update new.1.entries.nextLink tail (some new.2) } }
    | none => { new.1 with byFrn := new.1.byFrn.set record new.2 }
  { linked with dirty := linked.dirty + 1 }

/-- The loop of `set_chain_links`: the index, the entries of the old chain that no link has
    matched yet, and the new chain. -/
structure Matching where
  index : VolumeIndex
  unused : List EntryIdx
  kept : List EntryIdx

def matchLink (frn : Frn) (isDir : Bool) (size : UInt64) (mtime : Int64) (m : Matching)
    (link : LinkTarget × EntryIdx) : Matching :=
  let ix := m.index
  let existing := m.unused.find? fun e =>
    ix.entries.parent e = some link.2 && ix.rawName e = link.1.name.bytes
  match existing with
  | some e => { m with unused := m.unused.erase e, kept := m.kept ++ [e] }
  | none =>
    let new := ix.newEntry frn link.2 link.1.name.bytes { dir := isDir, nonUnicodeName := link.1.name.lossy } size mtime
    let inserted := new.1.dirIndexInsert new.2
    { m with index := { inserted with dirty := inserted.dirty + 1 }, kept := m.kept ++ [new.2] }

def relink (nextLink : EntryIdx → Option EntryIdx) : List EntryIdx → EntryIdx → Option EntryIdx
  | [] => nextLink
  | e :: rest => relink (update nextLink e rest.head?) rest

def setChainLinks (ix : VolumeIndex) (frn : Frn) (isDir : Bool) (desired : List LinkTarget) : VolumeIndex :=
  let current := ix.links frn
  let reclaimed := ix.reclaimStale frn
  let parents := desired.map fun t => if reclaimed.entries.isTombstone t.parent then reclaimed.lostFound else t.parent
  let size := (current.head?.map reclaimed.entries.size).getD sizeUnknown
  let mtime := (current.head?.map reclaimed.entries.mtime).getD mtimeUnknown
  let matched := (desired.zip parents).foldl (matchLink frn isDir size mtime)
    { index := reclaimed, unused := current, kept := [] }
  let cleared := matched.unused.foldl removeEntry matched.index
  { cleared with
    entries := { cleared.entries with nextLink := relink cleared.entries.nextLink matched.kept }
    byFrn :=
      match matched.kept.head? with
      | some head => cleared.byFrn.set frn.recordNumber head
      | none => cleared.byFrn }

def setLinkStat (ix : VolumeIndex) (frn : Frn) (size : Option UInt64) (mtime : Option Int64) : VolumeIndex :=
  let chain := ix.links frn
  { ix with
    entries := { ix.entries with
      size := fun e => if e ∈ chain then size.getD (ix.entries.size e) else ix.entries.size e
      mtime := fun e => if e ∈ chain then mtime.getD (ix.entries.mtime e) else ix.entries.mtime e } }

def insertEnum (ix : VolumeIndex) (rec : ParsedUsnRecord) : VolumeIndex :=
  (ix.upsertLink rec.frn rec.parentFrn rec.name rec.nameLossy rec.isDir).1

def resolveTargets (frn : Frn) : List LayoutName → VolumeIndex → VolumeIndex × List LinkTarget
  | [], ix => (ix, [])
  | n :: rest, ix =>
    let parent := ix.resolveLinkParent frn n.parentFrn
    let targets := resolveTargets frn rest parent.1
    (targets.1, { parent := parent.2, name := { bytes := n.name, lossy := n.nameLossy } } :: targets.2)

def addMissingLink (frn : Frn) (ix : VolumeIndex) (n : LayoutName) : VolumeIndex :=
  let parent := ix.resolveLinkParent frn n.parentFrn
  if parent.1.chainHasLink frn parent.2 n.name then parent.1 else parent.1.addLink frn parent.2 n.name n.nameLossy

def enrich (ix : VolumeIndex) (file : LayoutFile) : VolumeIndex :=
  let names := file.names.filter (fun n => !n.dosOnly)
  if (ix.headOf file.frn).isNone && names.isEmpty then ix
  else
    let known :=
      if (ix.headOf file.frn).isNone then
        let targets := resolveTargets file.frn names ix
        targets.1.setChainLinks file.frn file.isDir targets.2
      else ix
    let linked := if file.isDir then known else names.foldl (addMissingLink file.frn) known
    linked.setLinkStat file.frn (if file.isDir then none else file.size) file.mtimeFt

/-- The name a layout record stands for: its first long one, unless that makes the file its own parent. -/
def layoutName (file : LayoutFile) : Option LayoutName :=
  (file.names.find? (fun n => !n.dosOnly)).filter fun n => n.parentFrn ≠ file.frn

def insertLayout (ix : VolumeIndex) (file : LayoutFile) : VolumeIndex :=
  let upserted :=
    match layoutName file with
    | some n => (ix.upsertLink file.frn n.parentFrn n.name n.nameLossy file.isDir).1
    | none => ix
  upserted.enrich file

def applyOp (state : VolumeIndex × ApplyOutcome) (op : UsnOp) : VolumeIndex × ApplyOutcome :=
  let ix := state.1
  let outcome := state.2
  match op with
  | .upsert frn parent name nameLossy isDir =>
    let upserted := ix.upsertLink frn parent name nameLossy isDir
    match upserted.2 with
    | .needsReconcile => (upserted.1, { outcome with needsLinkReconcile := outcome.needsLinkReconcile ++ [frn] })
    | .ok => (upserted.1, outcome)
  | .delete frn =>
    let deleted := ix.deleteFrn frn
    if deleted.2 then (deleted.1, outcome)
    else
      ({ deleted.1 with stats := { deleted.1.stats with deleteOfUnknown := deleted.1.stats.deleteOfUnknown + 1 } },
        { outcome with anomalies := outcome.anomalies ++ [.deleteOfUnknown frn] })
  | .linkDirty frn => (ix, { outcome with needsLinkReconcile := outcome.needsLinkReconcile ++ [frn] })
  | .statDirty frn => (ix, { outcome with needsStat := outcome.needsStat ++ [frn] })
  | .renameOldSeen _ => ({ ix with stats := { ix.stats with renameOldSeen := ix.stats.renameOldSeen + 1 } }, outcome)

def mergeNames (ix : VolumeIndex) : VolumeIndex := { ix with names := ix.names.mergeUnranked }

def applyBatch (ix : VolumeIndex) (records : List ParsedUsnRecord) : VolumeIndex × ApplyOutcome :=
  let applied := (records.flatMap opsFor).foldl applyOp (ix, {})
  let merged := if applied.1.names.wantsMerge then applied.1.mergeNames else applied.1
  let pruned := merged.pruneCycleSuspects
  ({ pruned with generation := pruned.generation + 1 },
    { applied.2 with
      needsStat := applied.2.needsStat.filter fun frn => (merged.headOf frn).isSome
      wantsCompact := pruned.names.shouldCompact })

def reconcileLinks (ix : VolumeIndex) (frn : Frn) (actual : List LinkTarget) : VolumeIndex :=
  if actual.isEmpty then (ix.deleteFrn frn).1
  else
    let isDir := ((ix.headOf frn).map fun head => (ix.entries.flags head).dir).getD false
    ix.setChainLinks frn isDir actual

def setStat (ix : VolumeIndex) (frn : Frn) (size : UInt64) (mtime : Int64) : VolumeIndex :=
  match ix.headOf frn with
  | none => ix
  | some head => ix.setLinkStat frn (if (ix.entries.flags head).dir then none else some size) (some mtime)

def planCompaction (ix : VolumeIndex) : Option CompactedNames :=
  if ix.names.shouldCompact then some ix.names.planCompact else none

def applyCompaction (ix : VolumeIndex) (plan : CompactedNames) : VolumeIndex :=
  { ix with
    names := ix.names.installCompacted plan
    entries := { ix.entries with
      nameId := fun e =>
        if ix.entries.isTombstone e then ix.entries.nameId e else (plan.remap (ix.entries.nameId e)).getD nilName } }

def compact (ix : VolumeIndex) : VolumeIndex :=
  match ix.planCompaction with
  | none => ix
  | some plan => ix.applyCompaction plan

/-- `capacity` is that of the hash map behind a sparse record map. -/
def optimizeStorage (ix : VolumeIndex) (capacity : Nat) : VolumeIndex :=
  { ix with
    byFrn := ix.byFrn.densifyIfSmaller capacity
    names := ix.names.buildOrder }.pruneCycleSuspects

def new (rootFrn : Frn) (frnMap : FrnMap) : VolumeIndex :=
  let rootName := NameStore.new.intern []
  let root := EntryTable.new.alloc rootFrn none rootName.2 { dir := true } sizeUnknown mtimeUnknown none
  let lfName := rootName.1.intern lostFoundName
  let lostFound := root.1.alloc lostFoundFrn none lfName.2 { dir := true, lostFound := true } sizeUnknown
    mtimeUnknown none
  let ix : VolumeIndex :=
    { entries := lostFound.1
      names := lfName.1
      byFrn := frnMap.set rootFrn.recordNumber root.2
      root := root.2
      lostFound := lostFound.2
      generation := 0
      stats := {}
      dirty := 0
      dirChildren := fun _ => none
      cycleSuspects := [] }
  (ix.linkSameName root.2 rootName.2).linkSameName lostFound.2 lfName.2

def hasOrphans (ix : VolumeIndex) : Bool := (ix.entries.firstChild ix.lostFound).isSome

def hasParentCycle (ix : VolumeIndex) : Bool := !ix.cycleSuspects.isEmpty

def mayHaveUnpresentable (ix : VolumeIndex) : Bool := ix.hasOrphans || ix.hasParentCycle

def pathChain (ix : VolumeIndex) : Nat → EntryIdx → List EntryIdx
  | 0, _ => []
  | hops + 1, cur =>
    cur :: match ix.entries.parent cur with
      | none => []
      | some parent => ix.pathChain hops parent

def pushComponent (ix : VolumeIndex) (out : Bytes) (e : EntryIdx) : Bytes :=
  if e = ix.root then out else (if out.isEmpty then out else out ++ [0x5C]) ++ ix.rawName e

def pathOf (ix : VolumeIndex) (idx : EntryIdx) (out : Bytes) : PathStatus × Bytes :=
  if ix.entries.isTombstone idx then (.removed, out)
  else
    let chain := ix.pathChain maxPathHops idx
    let top := chain.getLast?.getD idx
    if (ix.entries.parent top).isSome then (.cycleDetected, out)
    else
      (if top = ix.lostFound then .inLostFound else .ok, chain.reverse.foldl ix.pushComponent out)

def isSynthetic (ix : VolumeIndex) (idx : EntryIdx) : Bool :=
  idx = ix.root || idx = ix.lostFound || (ix.entries.flags idx).placeholder || (ix.entries.flags idx).lostFound

def entryIfFrn (ix : VolumeIndex) (idx : EntryIdx) (frn : Frn) : Option EntryIdx :=
  if idx ≥ ix.entries.capacity || ix.entries.isTombstone idx then none
  else if ix.entries.frn idx = frn then some idx else none

def nameChain (ix : VolumeIndex) (id : NameId) : List EntryIdx :=
  walk ix.entries.nextSame ix.entries.capacity (ix.names.head id)

def children (ix : VolumeIndex) (dir : EntryIdx) : List EntryIdx :=
  walk ix.entries.nextChild ix.entries.capacity (ix.entries.firstChild dir)

end VolumeIndex

end Goz
