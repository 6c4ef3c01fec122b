import Goz.Bootstrap.Convergence

namespace Goz.Bootstrap

open Function Rows VolumeIndex Intrusive List

variable {names : List Row} {frnMap : FrnMap}

section Rows

variable [Externals] {ix : VolumeIndex} {frn : Frn}

omit [Externals] in
theorem runOps_bare (single : names.length ≤ 1) (ops : List UsnOp) :
    runOps frn ops (names.map Row.bare) = (runOps frn ops names).map Row.bare := by
  induction ops generalizing names with
  | nil => rfl
  | cons op rest ih =>
    show runOps frn rest (runEffect (names.map Row.bare) (effect frn op)) = _
    rw [runEffect_bare single]
    exact ih (runEffect_single single _)

omit [Externals] in
theorem single_of_bare (same : ∀ g, (ix.bareRows g).length ≤ 1) : ix.rows.Single := by
  intro g
  have few := same g
  rwa [bareRows, length_map] at few

omit [Externals] in
theorem bareRows_single (single : ix.rows.Single) (g : Frn) : (ix.bareRows g).length ≤ 1 := by
  rw [bareRows, length_map]
  exact single g

omit [Externals] in
theorem upsert_bare {rows : Rows} (single : rows.Single) (s p : Frn) (name : Bytes) (nameLossy isDir : Bool) (g : Frn) :
    (rows.upsert s p name nameLossy isDir g).map Row.bare =
      runEffect ((rows g).map Row.bare) (effect g (.upsert s p name nameLossy isDir)) := by
  rw [upsert_apply, runEffect_bare (single g)]

theorem rows_new (rootFrn : Frn) (empty : ∀ r, frnMap.get r = none) :
    (∀ g, g ≠ rootFrn → (new rootFrn frnMap).rows g = []) ∧
      ∃ row, (new rootFrn frnMap).rows rootFrn = [row] ∧ row.parent = .none ∧ row.flags.placeholder = false := by
  have mapped : ∀ r, (new rootFrn frnMap).byFrn.get r = if r = rootFrn.recordNumber then some 0 else frnMap.get r :=
    fun r => FrnMap.get_set ..
  have own : (new rootFrn frnMap).entries.frn 0 = rootFrn := rfl
  constructor
  · intro g other
    have missing : (new rootFrn frnMap).headOf g = none := by
      unfold headOf
      rw [mapped, empty]
      split
      · simp [own, Ne.symm other]
      · rfl
    rw [rows, links_of_no_head missing]
    rfl
  · have found : (new rootFrn frnMap).headOf rootFrn = some 0 := by
      rw [headOf_some_iff, mapped, if_pos rfl]
      exact ⟨rfl, own⟩
    have listed : (new rootFrn frnMap).rows rootFrn = [(new rootFrn frnMap).row 0] := by
      rw [rows, links, found]
      rfl
    exact ⟨_, listed, rfl, rfl⟩

end Rows

section Build

variable [Externals] {events : List Event}

def bootstrap (rootFrn : Frn) (frnMap : FrnMap) (capacity : Nat) (events : List Event)
    (batches : List (List ParsedUsnRecord)) : VolumeIndex :=
  let built := (snapshot events).foldl (fun ix op => op.run ix) (new rootFrn frnMap)
  batches.foldl (fun ix records => (ix.applyBatch records).1) (built.optimizeStorage capacity)

variable {rootFrn : Frn} {v v' : Volume rootFrn} {ix : VolumeIndex}

theorem Sees.bareRows {record : Nat} {op : IndexOp} (sees : Sees v record (some op)) (inv : ix.Invariant)
    (single : ix.rows.Single) (root : ix.rows rootFrn ≠ []) (g : Frn) :
    (op.run ix).bareRows g = runOps g (upserts op) (ix.bareRows g) := by
  cases sees with
  | enum rec file at_ here reports =>
    have upserted := inv.upsertLink rec.frn rec.parentFrn rec.name rec.nameLossy rec.isDir
    show ((ix.upsertLink rec.frn rec.parentFrn rec.name rec.nameLossy rec.isDir).1.rows g).map Row.bare = _
    rw [upserted.rows]
    exact upsert_bare single ..
  | layout layout file at_ here isDir named =>
    have unlike : file.parent ≠ layout.frn := (v.parents layout.frn file at_).1
    show (ix.insertLayout layout).bareRows g = _
    rw [inv.insertLayout_bare single named unlike, upserts, layoutName_single named unlike]
    exact upsert_bare single ..
  | root layout own here folder self =>
    have unnamed : layoutName layout = none := layoutName_self self
    show (ix.insertLayout layout).bareRows g = _
    rw [inv.insertLayout_self (own ▸ root) folder self, upserts, unnamed]
    rfl

theorem Watch.snapshot_rows (watch : Watch v events v') (inv : ix.Invariant)
    (single : ix.rows.Single) {row : Row} (root : ix.bareRows rootFrn = [row]) (top : row.parent = .none) :
    let built := (snapshot events).foldl (fun ix op => op.run ix) ix
    built.Invariant ∧ built.rows.Single ∧ ∀ g, built.bareRows g = runOps g (snapshotOps events) (ix.bareRows g) := by
  induction watch generalizing ix with
  | done v => exact ⟨inv, single, fun _ => rfl⟩
  | change step rest ih => exact ih inv single root
  | @read v v' record inserted events sees rest ih =>
    cases inserted with
    | none => exact ih inv single root
    | some op =>
      have present : ix.rows rootFrn ≠ [] := fun empty => by simp [bareRows, empty] at root
      have rows := sees.bareRows inv single present
      have inv' := (inv.run op).invariant inv
      have single' : (op.run ix).rows.Single := single_of_bare fun g => by
        rw [rows]
        exact runOps_single (bareRows_single single g)
      have root' : (op.run ix).bareRows rootFrn = [row] := by
        have kept := sees.keeps_root top
        rw [Option.toList_some, flatMap_singleton] at kept
        rw [rows, root, kept]
      obtain ⟨inv'', single'', rows''⟩ := ih inv' single' root'
      refine ⟨inv'', single'', fun g => ?_⟩
      show ((snapshot events).foldl (fun ix op => op.run ix) (op.run ix)).bareRows g = _
      rw [rows'', rows, runOps_read]
      simp

theorem rows_batches (inv : ix.Invariant) (batches : List (List ParsedUsnRecord)) :
    let final := batches.foldl (fun ix records => (ix.applyBatch records).1) ix
    final.Invariant ∧ ∀ g, final.rows g = runOps g (batches.flatten.flatMap opsFor) (ix.rows g) := by
  induction batches generalizing ix with
  | nil => exact ⟨inv, fun _ => rfl⟩
  | cons records rest ih =>
    have applied := inv.applyBatch records
    obtain ⟨inv', rows⟩ := ih (applied.invariant inv)
    refine ⟨inv', fun g => ?_⟩
    show (rest.foldl (fun ix records => (ix.applyBatch records).1) (ix.applyBatch records).1).rows g = _
    rw [rows, applied.rows, applyBatch_apply, flatten_cons, flatMap_append, runOps_append]

omit [Externals] in
theorem Shows.of_bare {file : FileState} (shows_ : Shows file (names.map Row.bare)) : Shows file names := by
  obtain ⟨bare, eq, shown⟩ := shows_
  obtain ⟨row, rfl, rfl⟩ := map_eq_singleton_iff.mp eq
  exact ⟨row, rfl, shown⟩

theorem Watch.bootstrap_rows (watch : Watch v events v')
    (empty : ∀ r, frnMap.get r = none) (capacity : Nat) {batches : List (List ParsedUsnRecord)}
    (split : batches.flatten = journal events) :
    (bootstrap rootFrn frnMap capacity events batches).Invariant ∧
      ∀ g, (bootstrap rootFrn frnMap capacity events batches).bareRows g =
        runOps g (journalOps events) (runOps g (snapshotOps events) ((new rootFrn frnMap).bareRows g)) := by
  obtain ⟨others, row, listed, top, -⟩ := rows_new rootFrn empty
  have single : (new rootFrn frnMap).rows.Single := by
    intro g
    by_cases root : g = rootFrn
    · rw [root, listed]
      exact le_rfl
    · rw [others g root]
      exact Nat.zero_le 1
  have root : (new rootFrn frnMap).bareRows rootFrn = [row.bare] := by rw [bareRows, listed]; rfl
  obtain ⟨inv, single', rows⟩ := watch.snapshot_rows (invariant_new rootFrn empty) single root top
  set built := (snapshot events).foldl (fun ix op => op.run ix) (new rootFrn frnMap)
  have optimized := (inv.optimizeStorage capacity).invariant inv
  obtain ⟨inv', rows'⟩ := rows_batches optimized batches
  refine ⟨inv', fun g => ?_⟩
  show ((batches.foldl (fun ix records => (ix.applyBatch records).1) (built.optimizeStorage capacity)).rows g).map
    Row.bare = _
  rw [rows', split, rows_optimizeStorage, ← runOps_bare (single' g), ← rows]
  rfl

end Build

/-- The index after bootstrap holds exactly the files the volume has at the end, each under its
    parent and name, with no placeholder and nothing under lost+found. -/
theorem bootstrap_converges [Externals] {rootFrn : Frn} {v v' : Volume rootFrn} {events : List Event}
    (watch : Watch v events v')
    (covered : ∀ f, v.files f ≠ none → ∃ inserted, Event.read f.recordNumber inserted ∈ events)
    {frnMap : FrnMap} (empty : ∀ r, frnMap.get r = none) (capacity : Nat) {batches : List (List ParsedUsnRecord)}
    (split : batches.flatten = journal events) :
    let ix := bootstrap rootFrn frnMap capacity events batches
    (∀ f file, v'.files f = some file → ∃ row, ix.rows f = [row] ∧ row.parent = .of file.parent ∧
      row.name = file.name ∧ row.flags.dir = file.isDir ∧ row.flags.nonUnicodeName = file.nameLossy ∧
      row.flags.placeholder = false) ∧
    (∀ f, f ≠ rootFrn → v'.files f = none → ix.rows f = []) ∧
    (∃ row, ix.rows rootFrn = [row] ∧ row.parent = .none) ∧
    (∀ e, ix.Live e → e ≠ ix.lostFound → (ix.entries.flags e).placeholder = false ∧
      ix.entries.parent e ≠ some ix.lostFound) := by
  intro ix
  obtain ⟨inv, rows⟩ := watch.bootstrap_rows empty capacity split
  obtain ⟨others, top, listed, topmost, plain⟩ := rows_new rootFrn empty
  have alive : ∀ f file, v'.files f = some file → Shows file (ix.rows f) := by
    intro f file at_
    apply Shows.of_bare
    show Shows file (ix.bareRows f)
    rw [rows, bareRows, others f (v'.ne_root at_)]
    rcases watch.told at_ with told | ⟨there, later, -, read⟩
    · exact told _ (runOps_single (Nat.zero_le 1))
    · exact later _ (read (covered f (by simp [there])) [] (Nat.zero_le 1))
  have dead : ∀ f, f ≠ rootFrn → v'.files f = none → ix.rows f = [] := by
    intro f other absent
    apply map_eq_nil_iff.mp
    show ix.bareRows f = []
    rw [rows, bareRows, others f other]
    rcases watch.gone absent other with told | ⟨-, later, unread⟩
    · exact told _
    · rw [map_nil, unread, later]
  have root : ix.bareRows rootFrn = [top.bare] := by
    have kept := watch.root (show top.bare.parent = .none from topmost)
    rw [rows, bareRows, listed, map_singleton, kept.2, kept.1]
  obtain ⟨row, rootRow, same⟩ := map_eq_singleton_iff.mp root
  have rootParent : row.parent = .none := (congrArg Row.parent same).trans topmost
  have rootFlags : row.flags.placeholder = false := (congrArg (fun row => row.flags.placeholder) same).trans plain
  refine ⟨alive, dead, ⟨row, rootRow, rootParent⟩, fun e live notLost => ?_⟩
  -- every live entry is a row of its FRN
  obtain ⟨chains, tenants⟩ := inv.tenants
  have inside : ix.row e ∈ ix.rows (ix.entries.frn e) :=
    mem_map_of_mem ((tenants.mem_links inv.integrity).mpr ⟨live, notLost, rfl⟩)
  have good : (ix.row e).flags.placeholder = false ∧ (ix.row e).parent ≠ .lostFound := by
    by_cases top' : ix.entries.frn e = rootFrn
    · rw [top', rootRow, mem_singleton] at inside
      rw [inside]
      exact ⟨rootFlags, by simp [rootParent]⟩
    · cases at_ : v'.files (ix.entries.frn e) with
      | none =>
        rw [dead _ top' at_] at inside
        cases inside
      | some file =>
        obtain ⟨row, eq, parent, -, -, -, flag⟩ := alive _ file at_
        rw [eq, mem_singleton] at inside
        rw [inside]
        exact ⟨flag, by simp [parent]⟩
  refine ⟨good.1, fun lost => good.2 ?_⟩
  simp [VolumeIndex.row, parentRef, lost]

variable {rootFrn f : Frn}

def Volume.blank (rootFrn : Frn) : Volume rootFrn where
  files _ := none
  root := rfl
  tenant f g hf hg _ := by
    simp only [ne_eq, not_true_eq_false, or_false] at hf hg
    rw [hf, hg]
  parents f file at_ := by cases at_

def Volume.only {rootFrn f : Frn} (apart : f.recordNumber ≠ rootFrn.recordNumber) (name : Bytes) : Volume rootFrn where
  files := update (fun _ => none) f (some ⟨rootFrn, name, false, true⟩)
  root := update_of_ne (fun same => apart (by rw [same])) _ _
  tenant g h hg hh same := by
    have only : ∀ g, update (fun _ => none) f (some ⟨rootFrn, name, false, true⟩ : Option FileState) g ≠ none → g = f := by
      intro g there
      by_contra other
      exact there (update_of_ne other _ _)
    rcases hg with rfl | hg <;> rcases hh with rfl | hh
    · rfl
    · exact absurd (only h hh ▸ same.symm) apart
    · exact absurd (only g hg ▸ same) apart
    · rw [only g hg, only h hh]
  parents g file at_ := by
    by_cases own : g = f
    · rw [own, update_self] at at_
      obtain rfl := Option.some.inj at_
      exact ⟨fun same => apart (by rw [← own, ← same]), .inl rfl⟩
    · rw [update_of_ne own] at at_
      cases at_

theorem Volume.only_self (apart : f.recordNumber ≠ rootFrn.recordNumber) (name : Bytes) :
    (Volume.only apart name).files f = some ⟨rootFrn, name, false, true⟩ := by
  simp [Volume.only]

theorem Volume.only_of_ne {g : Frn} (apart : f.recordNumber ≠ rootFrn.recordNumber) (name : Bytes)
    (other : g ≠ f) : (Volume.only apart name).files g = none := by
  simp [Volume.only, other]

def folderDeleted : ParsedUsnRecord := { folderRecord with reason := UsnReason.fileDelete }

/-- The folder is deleted before its record is read, and another folder has the record by then. -/
def reuse : List Event :=
  [.change folderDeleted, .change successorRecord, .read 6 (some (.insertEnum successorRecord))]

theorem watch_reuse (before : folderRecord.frn.recordNumber ≠ ntfsRootFrn.recordNumber)
    (after : successorRecord.frn.recordNumber ≠ ntfsRootFrn.recordNumber) :
    Watch (Volume.only before [0x61]) reuse (Volume.only after [0x62]) := by
  have deleted : Change (Volume.only before [0x61]) (Volume.blank ntfsRootFrn) folderDeleted := by
    apply Change.delete ⟨ntfsRootFrn, [0x61], false, true⟩
    · exact Volume.only_self before [0x61]
    · simp [Volume.only, Volume.blank, folderDeleted]
    · exact ⟨rfl, rfl, rfl, by decide⟩
    · decide
  have created : Change (Volume.blank ntfsRootFrn) (Volume.only after [0x62]) successorRecord := by
    apply Change.create ⟨ntfsRootFrn, [0x62], false, true⟩
    · rfl
    · rfl
    · exact ⟨rfl, rfl, rfl, by decide⟩
    · decide
    · decide
  have seen : Sees (Volume.only after [0x62]) 6 (some (.insertEnum successorRecord)) := by
    apply Sees.enum successorRecord ⟨ntfsRootFrn, [0x62], false, true⟩
    · exact Volume.only_self after [0x62]
    · decide
    · exact ⟨rfl, rfl, rfl, by decide⟩
  exact .change deleted (.change created (.read seen (.done _)))

theorem bootstrap_reuse :
    letI := Externals.ascii
    let ix := bootstrap ntfsRootFrn (.sparse []) 0 reuse [[folderDeleted], [successorRecord]]
    ix.rows folderRecord.frn = [] ∧ ∃ row, ix.rows successorRecord.frn = [row] ∧ row.name = [0x62] := by
  let _ := Externals.ascii
  intro ix
  have before : folderRecord.frn.recordNumber ≠ ntfsRootFrn.recordNumber := by decide
  have after : successorRecord.frn.recordNumber ≠ ntfsRootFrn.recordNumber := by decide
  have covered : ∀ f, (Volume.only before [0x61]).files f ≠ none →
      ∃ inserted, Event.read f.recordNumber inserted ∈ reuse := by
    intro f there
    have own : f = folderRecord.frn := by
      by_contra other
      exact there (Volume.only_of_ne before [0x61] other)
    rw [own]
    exact ⟨_, .tail _ (.tail _ (.head _))⟩
  have blank : ∀ r, (FrnMap.sparse []).get r = none := fun _ => rfl
  have split : [[folderDeleted], [successorRecord]].flatten = journal reuse := rfl
  obtain ⟨alive, dead, -, -⟩ := bootstrap_converges (watch_reuse before after) covered blank 0 split
  obtain ⟨row, listed, -, name, -⟩ := alive successorRecord.frn _ (Volume.only_self after [0x62])
  exact ⟨dead folderRecord.frn (by decide) (Volume.only_of_ne after [0x62] (by decide)), row, listed, name⟩

end Goz.Bootstrap
