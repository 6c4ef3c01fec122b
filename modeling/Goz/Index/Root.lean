import Goz.Index.Reachable

namespace Goz

open Function List Externals

/-- No field of a record names the root's record number with another sequence, and the root is not its subject. -/
def AvoidsRoot (rootFrn frn : Frn) (parents : List Frn) : Prop :=
  frn ≠ rootFrn ∧ ¬ frn.Stale rootFrn ∧ ∀ parent ∈ parents, ¬ parent.Stale rootFrn

def ParsedUsnRecord.AvoidsRoot (rootFrn : Frn) (rec : ParsedUsnRecord) : Prop :=
  Goz.AvoidsRoot rootFrn rec.frn [rec.parentFrn]

def LayoutFile.AvoidsRoot (rootFrn : Frn) (file : LayoutFile) : Prop :=
  Goz.AvoidsRoot rootFrn file.frn (file.names.map LayoutName.parentFrn)

namespace VolumeIndex

section Rooted

variable [Externals] {touched : Frn → Prop}

/-- The root entry stands: live under the volume's root FRN, found through it, and without a parent. -/
structure Rooted (rootFrn : Frn) (ix : VolumeIndex) : Prop where
  live : ix.Live ix.root
  frn : ix.entries.frn ix.root = rootFrn
  found : ix.headOf rootFrn = some ix.root
  top : ix.entries.parent ix.root = none

variable {ix ix' : VolumeIndex} {rootFrn : Frn}

theorem Prim.rooted (spared : ¬ touched rootFrn) (step : Prim touched ix ix')
    (ok : ix.Integrity) (rooted : Rooted rootFrn ix) : Rooted rootFrn ix' := by
  have effect := step.effect ok
  obtain ⟨live, carried⟩ := effect.kept ix.root rooted.live (.inr (rooted.frn ▸ spared))
  have own := carried.frn.trans rooted.frn
  have top := carried.parent.resolve_right fun moved => moved.2 rooted.top
  constructor
  · rwa [effect.root]
  · rwa [effect.root]
  · rw [effect.root, headOf_some_iff]
    exact ⟨effect.heads rootFrn ix.root spared rooted.live rooted.found, own⟩
  · rw [effect.root, top, rooted.top]

theorem Runs.rooted (spared : ¬ touched rootFrn) (runs : Runs touched ix ix')
    (ok : ix.Integrity) (rooted : Rooted rootFrn ix) : Rooted rootFrn ix' :=
  Steps.preserves (fun step => step.rooted spared) runs.steps ok rooted

theorem rooted_new (rootFrn : Frn) (frnMap : FrnMap) : Rooted rootFrn (new rootFrn frnMap) := by
  have live := live_new rootFrn frnMap
  have root : (new rootFrn frnMap).root = 0 := rfl
  have own : (new rootFrn frnMap).entries.frn 0 = rootFrn := rfl
  have mapped : (new rootFrn frnMap).byFrn = frnMap.set rootFrn.recordNumber 0 := rfl
  constructor
  · exact (live _).mpr (.inl root)
  · exact own
  · rw [headOf_some_iff, mapped, FrnMap.get_set, if_pos rfl]
    exact ⟨rfl, own⟩
  · rfl

/-- The indexes reached by operations none of which removes or rewrites the root's entry. -/
inductive Undisturbed (rootFrn : Frn) : VolumeIndex → Prop
  | new {frnMap : FrnMap} (empty : ∀ r, frnMap.get r = none) : Undisturbed rootFrn (new rootFrn frnMap)
  | step {ix : VolumeIndex} (op : IndexOp) (before : Undisturbed rootFrn ix) (allowed : op.Allowed ix)
      (spared : ¬ op.Touches ix rootFrn) : Undisturbed rootFrn (op.run ix)

theorem Undisturbed.reachable (run : Undisturbed rootFrn ix) : Reachable rootFrn ix := by
  induction run with
  | new empty => exact .new empty
  | step op _ allowed _ ih => exact .step op ih allowed

theorem Undisturbed.rooted (run : Undisturbed rootFrn ix) : Rooted rootFrn ix := by
  induction run with
  | new empty => exact rooted_new rootFrn _
  | step op before _ spared ih =>
    have inv := before.reachable.invariant
    exact (inv.run op).rooted spared inv.integrity ih

end Rooted

def IndexOp.AvoidsRoot (rootFrn : Frn) : IndexOp → Prop
  | insertEnum rec => rec.AvoidsRoot rootFrn
  | insertLayout file | enrich file => file.AvoidsRoot rootFrn
  | applyBatch records => ∀ rec ∈ records, rec.AvoidsRoot rootFrn
  | reconcileLinks frn _ => Goz.AvoidsRoot rootFrn frn []
  | setStat .. | compact | mergeNames | optimizeStorage _ => True

section Spared

variable {ix : VolumeIndex} {rootFrn : Frn} {file : LayoutFile}

theorem upsert_spares (rows : Rows) {frn parentFrn : Frn} (avoids : AvoidsRoot rootFrn frn [parentFrn]) :
    ¬ rows.UpsertTouches frn parentFrn rootFrn := by
  obtain ⟨subject, stale, parents⟩ := avoids
  rintro (⟨same, -⟩ | other | ⟨-, other⟩)
  · exact subject same.symm
  · exact stale other
  · exact parents parentFrn (by simp) other

variable (avoids : file.AvoidsRoot rootFrn)
include avoids

theorem parents_spare : ¬ ParentsTouch file.frn (longNames file) rootFrn := by
  rintro ⟨n, mem, -, stale⟩
  exact avoids.2.2 n.parentFrn (mem_map_of_mem (mem_filter.mp mem).1) stale

theorem enrich_spares : ¬ EnrichTouches ix file rootFrn := by
  rintro (⟨-, -, same | stale⟩ | ⟨-, parents⟩)
  · exact avoids.1 same.symm
  · exact avoids.2.1 stale
  · exact parents_spare avoids parents

theorem layout_spares : ¬ LayoutTouches ix file rootFrn := by
  unfold LayoutTouches
  cases named : layoutName file with
  | none => exact enrich_spares avoids
  | some n =>
    rintro (touch | ⟨-, parents⟩)
    · have inside := (mem_filter.mp (layoutName_mem named)).1
      refine upsert_spares ix.rows ⟨avoids.1, avoids.2.1, ?_⟩ touch
      intro parent mem
      rw [mem_singleton.mp mem]
      exact avoids.2.2 n.parentFrn (mem_map_of_mem inside)
    · exact parents_spare avoids parents

omit avoids

theorem opsFor_touches (rows : Rows) {rec : ParsedUsnRecord} {op : UsnOp} {g : Frn} (mem : op ∈ opsFor rec)
    (touch : rows.OpTouches op g) : rows.UpsertTouches rec.frn rec.parentFrn g ∨ g = rec.frn := by
  unfold opsFor at mem
  split at mem
  · simp only [mem_cons, not_mem_nil, or_false] at mem
    rcases mem with rfl | rfl
    · exact .inr touch
    · exact touch.elim
  · simp only [mem_append] at mem
    rcases mem with (((mem | mem) | mem) | mem) | mem
    all_goals
      split at mem
      · rw [mem_singleton] at mem
        subst mem
        first
          | exact .inl touch
          | exact touch.elim
      · exact absurd mem not_mem_nil

theorem IndexOp.AvoidsRoot.spared {op : IndexOp} (avoids : op.AvoidsRoot rootFrn) : ¬ op.Touches ix rootFrn := by
  cases op with
  | insertEnum rec => exact upsert_spares ix.rows avoids
  | insertLayout file => exact layout_spares avoids
  | enrich file => exact enrich_spares avoids
  | applyBatch records =>
    rintro ⟨op, mem, touch⟩
    obtain ⟨rec, inside, asked⟩ := mem_flatMap.mp mem
    rcases opsFor_touches ix.rows asked touch with touch | same
    · exact upsert_spares ix.rows (avoids rec inside) touch
    · exact (avoids rec inside).1 same.symm
  | reconcileLinks frn actual =>
    rintro (same | stale)
    · exact avoids.1 same.symm
    · exact avoids.2.1 stale
  | setStat frn size mtime => exact id
  | compact => exact id
  | mergeNames => exact id
  | optimizeStorage capacity => exact id

end Spared

/-- The indexes reached by operations on records that avoid the root. -/
inductive RootFree [Externals] (rootFrn : Frn) : VolumeIndex → Prop
  | new {frnMap : FrnMap} (empty : ∀ r, frnMap.get r = none) : RootFree rootFrn (new rootFrn frnMap)
  | step {ix : VolumeIndex} (op : IndexOp) (before : RootFree rootFrn ix) (allowed : op.Allowed ix)
      (avoids : op.AvoidsRoot rootFrn) : RootFree rootFrn (op.run ix)

theorem RootFree.undisturbed [Externals] {rootFrn : Frn} {ix : VolumeIndex} (run : RootFree rootFrn ix) :
    Undisturbed rootFrn ix := by
  induction run with
  | new empty => exact .new empty
  | step op _ allowed avoids ih => exact .step op ih allowed avoids.spared

/-- The root keeps its place in every run that spares it. -/
theorem root_kept [Externals] {rootFrn : Frn} {ix : VolumeIndex} (run : Undisturbed rootFrn ix) :
    ix.Live ix.root ∧ ix.entries.frn ix.root = rootFrn ∧ ix.headOf rootFrn = some ix.root ∧
      ix.entries.parent ix.root = none := by
  have rooted := run.rooted
  exact ⟨rooted.live, rooted.frn, rooted.found, rooted.top⟩

theorem undisturbed_folderIndex : letI := ascii; Undisturbed ntfsRootFrn folderIndex :=
  letI := ascii
  .step (.insertEnum folderRecord) (.new fun _ => rfl) trivial fun touch => by
    rcases touch with ⟨same, -⟩ | stale | ⟨-, stale⟩
    · exact absurd same (by decide)
    · exact absurd stale (by decide)
    · exact stale.1 rfl

theorem folderIndex_root : folderIndex.headOf ntfsRootFrn = some 0 :=
  letI := ascii
  (root_kept undisturbed_folderIndex).2.2.1

def rootRecord : ParsedUsnRecord where
  majorVersion := 2
  frn := ntfsRootFrn
  parentFrn := ntfsRootFrn
  usn := 0
  timestampFt := 0
  reason := 0
  attributes := fileAttributeDirectory
  name := [0x2E]
  nameLossy := false

theorem insertEnum_rootRecord_unroots :
    letI := ascii
    ¬ Rooted ntfsRootFrn ((new ntfsRootFrn (.sparse [])).insertEnum rootRecord) :=
  letI := ascii
  fun rooted => absurd rooted.top (by decide)

end VolumeIndex

end Goz
