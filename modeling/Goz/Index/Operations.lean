import Goz.Index.HardLinks

namespace Goz.VolumeIndex

open Function Intrusive Rows

variable {ix : VolumeIndex} [Externals]

section Enrich

variable {frn : Frn} (inv : ix.Invariant)
include inv

theorem Invariant.stat (size : EntryIdx → UInt64) (mtime : EntryIdx → Int64) (stats : IndexStats)
    (dirty generation : Nat) : Runs (fun _ => False) ix
      (ix.relabel ix.byFrn ix.entries.nextLink size mtime stats dirty generation) := by
  obtain ⟨chains, tenants⟩ := inv.tenants
  exact ⟨.single (.relabel ix.byFrn ix.entries.nextLink size mtime stats dirty generation (.same rfl)),
    chains, { tenants with }⟩

theorem Invariant.setLinkStat (frn : Frn) (size : Option UInt64) (mtime : Option Int64) :
    Runs (fun _ => False) ix (ix.setLinkStat frn size mtime) :=
  inv.stat _ _ ix.stats ix.dirty ix.generation

theorem Invariant.resolve_present (parentFrn : Frn) (present : ix.Present frn) :
    (ix.resolveLinkParent frn parentFrn).1.Present frn := by
  have resolved := inv.resolveLinkParent frn parentFrn
  rw [(resolved.does.invariant inv).present_iff, resolved.does.rows]
  have there := inv.present_iff.mp present
  unfold resolve
  split
  case isTrue => exact there
  case isFalse fresh =>
    have kept : ix.rows.destroy parentFrn.Stale frn ≠ [] := by
      rw [Ne, destroy_eq_nil, not_or]
      exact ⟨fun stale => fresh ⟨Ne.symm stale.1, stale.2.symm⟩, there⟩
    unfold ensure
    split
    · by_cases same : frn = parentFrn
      · simp [same]
      · rwa [update_of_ne same]
    · exact kept

theorem Invariant.addMissingLink (present : ix.Present frn) (n : LayoutName) :
    Runs (Rows.ParentTouches frn n.parentFrn) ix (addMissingLink frn ix n) ∧ (addMissingLink frn ix n).Present frn := by
  have resolved := inv.resolveLinkParent frn n.parentFrn
  have present' := inv.resolve_present n.parentFrn present
  unfold VolumeIndex.addMissingLink
  simp only
  split
  · exact ⟨resolved.does.runs, present'⟩
  · have added := (resolved.does.invariant inv).addLink present' resolved.live n.name n.nameLossy
    exact ⟨resolved.does.runs.trans (added.1.weaken fun _ => False.elim), added.2⟩

omit inv

def ParentsTouch (frn : Frn) (names : List LayoutName) (g : Frn) : Prop :=
  ∃ n ∈ names, Rows.ParentTouches frn n.parentFrn g

theorem Invariant.addMissingLinks (inv : ix.Invariant) (present : ix.Present frn) (names : List LayoutName) :
    Runs (ParentsTouch frn names) ix (names.foldl (VolumeIndex.addMissingLink frn) ix) := by
  suffices ∀ done rest, done ++ rest = names → ∀ ix : VolumeIndex, ix.Invariant → ix.Present frn →
      Runs (ParentsTouch frn names) ix (rest.foldl (VolumeIndex.addMissingLink frn) ix) from
    this [] names rfl ix inv present
  intro done rest
  induction rest generalizing done with
  | nil => exact fun _ ix inv _ => Runs.refl inv
  | cons n rest ih =>
    intro split ix inv present
    obtain ⟨first, present'⟩ := inv.addMissingLink present n
    have mem : n ∈ names := by simp [← split]
    refine (first.weaken fun g stale => ⟨n, mem, stale⟩).trans ?_
    exact ih (done ++ [n]) (by simpa using split) _ (first.invariant inv) present'

theorem Invariant.resolveTargets (inv : ix.Invariant) (frn : Frn) (names : List LayoutName) :
    Runs (ParentsTouch frn names) ix (resolveTargets frn names ix).1 ∧
      (resolveTargets frn names ix).2.length = names.length := by
  induction names generalizing ix with
  | nil => exact ⟨Runs.refl inv, rfl⟩
  | cons n rest ih =>
    have resolved := inv.resolveLinkParent frn n.parentFrn
    obtain ⟨runs, length⟩ := ih (resolved.does.invariant inv)
    refine ⟨(resolved.does.runs.weaken fun g stale => ⟨n, by simp, stale⟩).trans (runs.weaken ?_), ?_⟩
    · rintro g ⟨m, mem, stale⟩
      exact ⟨m, by simp [mem], stale⟩
    · simp [resolveTargets, length]

def longNames (file : LayoutFile) : List LayoutName := file.names.filter (fun n => !n.dosOnly)

omit [Externals] in
theorem layoutName_mem {file : LayoutFile} {n : LayoutName} (named : layoutName file = some n) : n ∈ longNames file := by
  have found : file.names.find? (fun n => !n.dosOnly) = some n := (Option.filter_eq_some_iff.mp named).1
  exact List.mem_filter.mpr ⟨List.mem_of_find?_eq_some found, (List.find?_some found : _)⟩

/-- What enriching may remove: for a file unknown so far the tenants of its record number, and
    other tenants of its parents'. A known folder's names are not read. -/
def EnrichTouches (ix : VolumeIndex) (file : LayoutFile) (g : Frn) : Prop :=
  (¬ ix.Present file.frn ∧ longNames file ≠ [] ∧ (g = file.frn ∨ file.frn.Stale g)) ∨
    ((¬ ix.Present file.frn ∨ file.isDir = false) ∧ ParentsTouch file.frn (longNames file) g)

theorem Invariant.enrich (inv : ix.Invariant) (file : LayoutFile) :
    Runs (EnrichTouches ix file) ix (ix.enrich file) := by
  have present_iff : ix.Present file.frn ↔ (ix.headOf file.frn).isNone = false := by
    rw [inv.present_iff, Ne, ← inv.headOf_none_iff]
    cases ix.headOf file.frn <;> simp
  unfold VolumeIndex.enrich
  simp only
  split
  · exact Runs.refl inv
  case isFalse full =>
    have known : ∃ known : VolumeIndex,
        (if (ix.headOf file.frn).isNone then
          (VolumeIndex.resolveTargets file.frn (file.names.filter fun n => !n.dosOnly) ix).1.setChainLinks file.frn file.isDir
            (VolumeIndex.resolveTargets file.frn (file.names.filter fun n => !n.dosOnly) ix).2 else ix) = known ∧
        Runs (EnrichTouches ix file) ix known ∧ known.Present file.frn := by
      split
      case isTrue missing =>
        obtain ⟨resolved, length⟩ := inv.resolveTargets file.frn (longNames file)
        have absent : ¬ ix.Present file.frn := by rw [present_iff, missing]; simp
        have some_ : (VolumeIndex.resolveTargets file.frn (longNames file) ix).2 ≠ [] := fun empty => by
          rw [empty] at length
          exact full (by simpa [missing, longNames] using List.eq_nil_of_length_eq_zero length.symm)
        obtain ⟨set, present⟩ := (resolved.invariant inv).setChainLinks file.frn file.isDir some_
        have named : longNames file ≠ [] := fun empty => by
          rw [empty] at some_
          exact some_ rfl
        exact ⟨_, rfl, (resolved.weaken fun g touch => .inr ⟨.inl absent, touch⟩).trans
          (set.weaken fun g touch => .inl ⟨absent, named, touch⟩), present⟩
      case isFalse found => exact ⟨ix, rfl, Runs.refl inv, present_iff.mpr (Bool.eq_false_of_not_eq_true found)⟩
    obtain ⟨known, eq, runs, present⟩ := known
    rw [eq]
    have linked : Runs (EnrichTouches ix file) ix
        (if file.isDir then known else (longNames file).foldl (VolumeIndex.addMissingLink file.frn) known) := by
      split
      · exact runs
      case isFalse plain =>
        exact runs.trans (((runs.invariant inv).addMissingLinks present (longNames file)).weaken fun g touch =>
          .inr ⟨.inr (Bool.eq_false_of_not_eq_true plain), touch⟩)
    exact linked.trans (((linked.invariant inv).setLinkStat file.frn _ _).weaken fun _ => False.elim)

theorem Invariant.upsert_present (inv : ix.Invariant) (frn parentFrn : Frn) (name : Bytes) (nameLossy isDir : Bool) :
    (ix.upsertLink frn parentFrn name nameLossy isDir).1.Present frn := by
  have upserted := inv.upsertLink frn parentFrn name nameLossy isDir
  rw [(upserted.invariant inv).present_iff, upserted.rows, upsert, update_self]
  unfold renameOnly
  split <;> simp_all

def LayoutTouches (ix : VolumeIndex) (file : LayoutFile) (g : Frn) : Prop :=
  match layoutName file with
  | none => EnrichTouches ix file g
  | some n => ix.rows.UpsertTouches file.frn n.parentFrn g ∨
      (file.isDir = false ∧ ParentsTouch file.frn (longNames file) g)

theorem Invariant.insertLayout (inv : ix.Invariant) (file : LayoutFile) :
    Runs (LayoutTouches ix file) ix (ix.insertLayout file) := by
  unfold VolumeIndex.insertLayout LayoutTouches
  cases named : layoutName file with
  | none => exact inv.enrich file
  | some n =>
    have upserted := inv.upsertLink file.frn n.parentFrn n.name n.nameLossy file.isDir
    have present := inv.upsert_present file.frn n.parentFrn n.name n.nameLossy file.isDir
    apply (upserted.runs.weaken fun g touch => Or.inl touch).trans
    apply ((upserted.invariant inv).enrich file).weaken
    intro g touch
    rcases touch with ⟨absent, -, -⟩ | ⟨absent | plain, parents⟩
    · exact absurd present absent
    · exact absurd present absent
    · exact .inr ⟨plain, parents⟩

end Enrich

section Journal

variable (inv : ix.Invariant)
include inv

theorem Invariant.applyOp (outcome : ApplyOutcome) (op : UsnOp) :
    Does (ix.rows.OpTouches op) ix (applyOp (ix, outcome) op).1 (ix.rows.applyOp op) := by
  have counted : ∀ stats, Does (ix.rows.OpTouches op) ix { ix with stats := stats } ix.rows := fun stats => by
    have runs := inv.stat ix.entries.size ix.entries.mtime stats ix.dirty ix.generation
    exact ⟨Steps.weaken (fun _ => False.elim) runs.steps, runs.tenants, rfl⟩
  cases op with
  | upsert frn parent name nameLossy isDir =>
    have upserted := inv.upsertLink frn parent name nameLossy isDir
    unfold VolumeIndex.applyOp
    simp only
    split <;> exact upserted
  | delete frn =>
    have deleted := inv.deleteFrn frn
    unfold VolumeIndex.applyOp
    simp only
    split
    · exact deleted
    case isFalse unknown =>
      have missing : ix.headOf frn = none := by
        cases found : ix.headOf frn with
        | none => rfl
        | some head => simp [VolumeIndex.deleteFrn, found] at unknown
      have same : (ix.deleteFrn frn).1 = ix := by simp [VolumeIndex.deleteFrn, missing]
      have rows := deleted.rows
      rw [same] at rows
      simp only [same, Rows.applyOp, ← rows]
      exact counted _
  | linkDirty frn => exact Does.refl inv rfl
  | statDirty frn => exact Does.refl inv rfl
  | renameOldSeen frn => exact counted _

theorem Invariant.applyOps (outcome : ApplyOutcome) (ops : List UsnOp) :
    Does (fun g => ∃ op ∈ ops, ix.rows.OpTouches op g) ix (ops.foldl VolumeIndex.applyOp (ix, outcome)).1
      (ops.foldl Rows.applyOp ix.rows) := by
  induction ops generalizing ix outcome with
  | nil => exact Does.refl inv rfl
  | cons op rest ih =>
    have first := inv.applyOp outcome op
    have later := ih (first.invariant inv) (VolumeIndex.applyOp (ix, outcome) op).2
    rw [first.rows] at later
    refine (first.weaken fun g touch => ⟨op, by simp, touch⟩).trans (later.weaken ?_)
    intro g later
    obtain ⟨other, mem, touch⟩ := later
    by_cases now : ix.rows.OpTouches op g
    · exact ⟨op, by simp, now⟩
    · exact ⟨other, by simp [mem], touch.before now⟩

theorem Invariant.reorder {names : NameStore} (resorted : NameStore.Resorted ix.names names) :
    Does (fun _ => False) ix (ix.withNames names) ix.rows := by
  obtain ⟨chains, tenants⟩ := inv.tenants
  refine ⟨.single (.reorder resorted), ⟨chains, { tenants with }⟩, ?_⟩
  have bytes : ∀ e, (ix.withNames names).rawName e = ix.rawName e := fun e => (resorted.reordered.sameBytes _).1
  have row : ∀ e, (ix.withNames names).row e = ix.row e := fun e =>
    congrArg (fun name => Row.mk _ name _ _ _) (bytes e)
  funext frn
  exact List.map_congr_left fun e _ => row e

theorem Invariant.prune : Does (fun _ => False) ix ix.pruneCycleSuspects ix.rows := by
  obtain ⟨chains, tenants⟩ := inv.tenants
  exact ⟨.single .prune, ⟨chains, { tenants with }⟩, rfl⟩

theorem Invariant.applyBatch (records : List ParsedUsnRecord) :
    Does (ix.rows.BatchTouches records) ix (ix.applyBatch records).1 (ix.rows.applyBatch records) := by
  have applied := inv.applyOps {} (records.flatMap opsFor)
  have inv₁ := applied.invariant inv
  set after := ((records.flatMap opsFor).foldl VolumeIndex.applyOp (ix, {})).1
  have merged : Does (ix.rows.BatchTouches records) ix (if after.names.wantsMerge then after.mergeNames else after)
      (ix.rows.applyBatch records) := by
    split
    · refine applied.trans ?_
      have reordered := inv₁.reorder (.merge : NameStore.Resorted after.names after.names.mergeUnranked)
      rw [applied.rows] at reordered
      exact reordered.weaken fun _ => False.elim
    · exact applied
  have inv₂ := merged.invariant inv
  have pruned := inv₂.prune
  rw [merged.rows] at pruned
  have inv₃ := pruned.invariant inv₂
  set final := (if after.names.wantsMerge then after.mergeNames else after).pruneCycleSuspects
  have counted := inv₃.stat final.entries.size final.entries.mtime final.stats final.dirty (final.generation + 1)
  refine (merged.trans (pruned.weaken fun _ => False.elim)).trans ⟨?_, counted.tenants, pruned.rows⟩
  exact Steps.weaken (fun _ => False.elim) counted.steps

end Journal

variable (inv : ix.Invariant)
include inv

theorem Invariant.compact : Does (fun _ => False) ix ix.compact ix.rows := by
  unfold VolumeIndex.compact planCompaction
  split
  · exact Does.refl inv rfl
  case h_2 plan planned =>
    split at planned
    case isFalse => cases planned
    case isTrue =>
      obtain rfl := Option.some.inj planned
      obtain ⟨chains, tenants⟩ := inv.tenants
      refine ⟨.single .compact, ⟨chains, { tenants with }⟩, ?_⟩
      funext frn
      refine List.map_congr_left fun e mem => ?_
      have live : ix.Live e := ((tenants.mem_links inv.integrity).mp (show e ∈ ix.links frn from mem)).1
      exact congrArg (fun name => Row.mk _ name _ _ _) (inv.integrity.renumbered live).2.1

theorem Invariant.optimizeStorage (capacity : Nat) :
    Runs (fun _ => False) ix (ix.optimizeStorage capacity) := by
  obtain ⟨chains, tenants⟩ := inv.tenants
  have steps : Steps (fun _ => False) ix (ix.optimizeStorage capacity) :=
    .tail (.tail (.single (.relabel (ix.byFrn.densifyIfSmaller capacity) ix.entries.nextLink ix.entries.size
      ix.entries.mtime ix.stats ix.dirty ix.generation (.same (funext fun _ => FrnMap.get_densifyIfSmaller ..))))
      (.reorder .build)) .prune
  refine ⟨steps, chains, fun r => ?_, tenants.mem, tenants.one⟩
  show Linked ix.entries.nextLink ((ix.byFrn.densifyIfSmaller capacity).get r) (chains r)
  rw [FrnMap.get_densifyIfSmaller]
  exact tenants.linked r

theorem Invariant.reconcileLinks (frn : Frn) (actual : List LinkTarget) :
    Runs (fun g => g = frn ∨ frn.Stale g) ix (ix.reconcileLinks frn actual) := by
  unfold VolumeIndex.reconcileLinks
  split
  · exact (inv.deleteFrn frn).runs.weaken fun _ same => .inl same
  case isFalse some_ => exact (inv.setChainLinks frn _ (by simpa using some_)).1

theorem Invariant.setStat (frn : Frn) (size : UInt64) (mtime : Int64) :
    Runs (fun _ => False) ix (ix.setStat frn size mtime) := by
  unfold VolumeIndex.setStat
  split
  · exact Runs.refl inv
  · exact inv.setLinkStat frn _ _

end Goz.VolumeIndex
