import Goz.Index.Paths
import Goz.Index.Reachable

namespace Goz

open Function Ascent

def UsnOp.Plain : UsnOp → Prop
  | .upsert .. => False
  | _ => True

namespace VolumeIndex

variable [Externals]

def IndexOp.Removes : IndexOp → Prop
  | .applyBatch records => ∀ op ∈ records.flatMap opsFor, op.Plain
  | .reconcileLinks _ actual => actual = []
  | .compact | .mergeNames | .optimizeStorage _ => True
  | .insertEnum _ | .insertLayout _ | .enrich _ | .setStat .. => False

def Dwindles : VolumeIndex → VolumeIndex → Prop :=
  Relation.ReflTransGen fun ix ix' => ∃ op : IndexOp, op.Removes ∧ ix' = op.run ix

/-- What is left in `ix'` of the entries of `ix`. An entry stays where it was as long as its folder
    is left, too. -/
structure Thinned (ix ix' : VolumeIndex) : Prop where
  root : ix'.root = ix.root
  lostFound : ix'.lostFound = ix.lostFound
  live : ∀ e, ix'.Live e → ix.Live e
  same : ∀ e, ix'.Live e → SameEntry ix ix' e
  parent : ∀ e, ix'.Live e → (∀ p, ix.entries.parent e = some p → ix'.Live p) →
    ix'.entries.parent e = ix.entries.parent e

section Thinned

variable {ix ix' ix'' : VolumeIndex}

omit [Externals] in
theorem SameEntry.refl (ix : VolumeIndex) (e : EntryIdx) : SameEntry ix ix e := by constructor <;> rfl

omit [Externals] in
theorem Thinned.refl (ix : VolumeIndex) : Thinned ix ix := ⟨rfl, rfl, fun _ => id, fun e _ => .refl ix e, fun _ _ _ => rfl⟩

omit [Externals] in
theorem Thinned.trans (first : Thinned ix ix') (second : Thinned ix' ix'') : Thinned ix ix'' where
  root := second.root.trans first.root
  lostFound := second.lostFound.trans first.lostFound
  live e alive := first.live e (second.live e alive)
  same e alive := (first.same e (second.live e alive)).trans (second.same e alive)
  parent e alive folder := by
    have before := first.parent e (second.live e alive) fun p at_ => second.live p (folder p at_)
    rw [← before]
    apply second.parent e alive
    intro p at_
    exact folder p (before ▸ at_)

omit [Externals] in
theorem Thinned.of_entries (entries : ix'.entries = ix.entries) (names : ix'.names = ix.names) (root : ix'.root = ix.root)
    (lostFound : ix'.lostFound = ix.lostFound) : Thinned ix ix' := by
  refine ⟨root, lostFound, fun e alive => ?_, fun e _ => ?_, fun e _ _ => by rw [entries]⟩
  · unfold Live at alive ⊢
    rwa [entries] at alive
  · constructor <;> simp only [entries, names, rawName, foldedName]

theorem Removed.thinned {gone : List EntryIdx} (removed : Removed ix gone ix') : Thinned ix ix' where
  root := removed.frame.root
  lostFound := removed.frame.lostFound
  live e alive := ((removed.live e).mp alive).1
  same := removed.same
  parent e alive folder := by
    rw [removed.parents e alive, if_neg]
    rintro ⟨p, out, at_⟩
    exact ((removed.live p).mp (folder p at_)).2 out

omit [Externals] in
theorem Thinned.withNames {names : NameStore} (same : NameStore.Reordered ix.names names) :
    Thinned ix (ix.withNames names) where
  root := rfl
  lostFound := rfl
  live _ alive := alive
  same _ _ := ⟨rfl, rfl, rfl, rfl, rfl, (same.sameBytes _).1, (same.sameBytes _).2⟩
  parent _ _ _ := rfl

variable (inv : ix.Invariant)
include inv

theorem Invariant.thinned_deleteFrn (frn : Frn) : Thinned ix (ix.deleteFrn frn).1 := by
  unfold VolumeIndex.deleteFrn
  split
  · exact .refl ix
  case h_2 head found =>
    obtain ⟨chains, tenants⟩ := inv.tenants
    have removed := (tenants.tombstoneChain inv.integrity (headOf_some_iff.mp found).1).1
    exact removed.thinned.trans (.of_entries rfl rfl rfl rfl)

theorem Invariant.thinned_applyOp (outcome : ApplyOutcome) {op : UsnOp} (plain : op.Plain) :
    Thinned ix (VolumeIndex.applyOp (ix, outcome) op).1 := by
  cases op with
  | upsert => exact plain.elim
  | delete frn =>
    have deleted := inv.thinned_deleteFrn frn
    unfold VolumeIndex.applyOp
    simp only
    split
    · exact deleted
    · exact deleted.trans (.of_entries rfl rfl rfl rfl)
  | linkDirty frn => exact .refl ix
  | statDirty frn => exact .refl ix
  | renameOldSeen frn => exact .of_entries rfl rfl rfl rfl

theorem Invariant.thinned_applyOps (outcome : ApplyOutcome) {ops : List UsnOp}
    (plain : ∀ op ∈ ops, op.Plain) : Thinned ix (ops.foldl VolumeIndex.applyOp (ix, outcome)).1 := by
  induction ops generalizing ix outcome with
  | nil => exact .refl ix
  | cons op rest ih =>
    have first := inv.thinned_applyOp outcome (plain op (by simp))
    have inv' := (inv.applyOp outcome op).invariant inv
    exact first.trans (ih inv' _ fun other mem => plain other (by simp [mem]))

theorem Invariant.thinned_applyBatch {records : List ParsedUsnRecord}
    (plain : ∀ op ∈ records.flatMap opsFor, op.Plain) : Thinned ix (ix.applyBatch records).1 := by
  have applied := inv.thinned_applyOps {} plain
  set after := ((records.flatMap opsFor).foldl VolumeIndex.applyOp (ix, {})).1
  have merged : Thinned ix (if after.names.wantsMerge then after.mergeNames else after) := by
    split
    · exact applied.trans (.withNames (NameStore.reordered_mergeUnranked after.names))
    · exact applied
  exact merged.trans (.of_entries rfl rfl rfl rfl)

omit inv

theorem Integrity.thinned_compact (ok : ix.Integrity) : Thinned ix ix.compact := by
  unfold VolumeIndex.compact planCompaction
  split
  · exact .refl ix
  case h_2 plan planned =>
    split at planned
    case isFalse => cases planned
    case isTrue =>
      obtain rfl := Option.some.inj planned
      refine ⟨rfl, rfl, fun _ alive => alive, fun e alive => ?_, fun _ _ _ => rfl⟩
      obtain ⟨-, raw, folded⟩ := ok.renumbered (show ix.Live e from alive)
      exact ⟨rfl, rfl, rfl, rfl, rfl, raw, folded⟩

theorem Invariant.thinned_run (inv : ix.Invariant) {op : IndexOp} (removes : op.Removes) : Thinned ix (op.run ix) := by
  cases op with
  | insertEnum => exact removes.elim
  | insertLayout => exact removes.elim
  | enrich => exact removes.elim
  | setStat => exact removes.elim
  | applyBatch records => exact inv.thinned_applyBatch removes
  | reconcileLinks frn actual =>
    have none_ : actual = [] := removes
    subst none_
    exact inv.thinned_deleteFrn frn
  | compact => exact inv.integrity.thinned_compact
  | mergeNames => exact .withNames (NameStore.reordered_mergeUnranked ix.names)
  | optimizeStorage capacity =>
    exact (Thinned.withNames NameStore.Resorted.build.reordered).trans (.of_entries rfl rfl rfl rfl)

theorem Dwindles.thinned (dwindles : Dwindles ix ix') (inv : ix.Invariant) : ix'.Invariant ∧ Thinned ix ix' := by
  induction dwindles with
  | refl => exact ⟨inv, .refl ix⟩
  | tail _ step ih =>
    obtain ⟨op, removes, rfl⟩ := step
    obtain ⟨inv', thinned⟩ := ih
    exact ⟨(inv'.run op).invariant inv', thinned.trans (inv'.thinned_run removes)⟩

end Thinned

variable {ix ix' : VolumeIndex} {e : EntryIdx}

omit [Externals] in
def Sheltered (ix ix' : VolumeIndex) (e : EntryIdx) : Prop :=
  ∀ k top, ascend ix.entries.parent k e = some top → ix'.Live top

omit [Externals] in
theorem Sheltered.above {k : Nat} {x : EntryIdx} (sheltered : Sheltered ix ix' e)
    (at_ : ascend ix.entries.parent k e = some x) : Sheltered ix ix' x := fun j top reached =>
  sheltered (k + j) top (by rw [ascend_of_ascend at_, reached])

omit [Externals] in
theorem Sheltered.parent {p : EntryIdx} (sheltered : Sheltered ix ix' e) (at_ : ix.entries.parent e = some p) :
    Sheltered ix ix' p := sheltered.above ((ascend_one e).trans at_)

omit [Externals] in
theorem Thinned.parent_eq (thinned : Thinned ix ix') (sheltered : Sheltered ix ix' e) :
    ix'.entries.parent e = ix.entries.parent e := by
  apply thinned.parent e (sheltered 0 e rfl)
  intro p at_
  exact sheltered 1 p ((ascend_one e).trans at_)

omit [Externals] in
theorem Thinned.pathOf_eq (thinned : Thinned ix ix') (sheltered : Sheltered ix ix' e) (out : Bytes) :
    ix'.pathOf e out = ix.pathOf e out := by
  have alive : ix'.Live e := sheltered 0 e rfl
  have way : SameWay ix ix' e := {
    root := thinned.root
    lost := thinned.lostFound
    live := iff_of_true alive (thinned.live e alive)
    parent := fun k x at_ => thinned.parent_eq (sheltered.above at_)
    name := fun k x at_ => (thinned.same x (sheltered k x at_)).rawName }
  exact way.pathOf_eq out

end VolumeIndex

end Goz
