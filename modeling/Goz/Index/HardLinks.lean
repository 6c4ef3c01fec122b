import Goz.Index.Upsert

namespace Goz.VolumeIndex

open Function Intrusive List

variable [Externals] {touched : Frn → Prop} {chains : Nat → List EntryIdx} {ix ix' : VolumeIndex}

/-- Writes that touch only what `touched` allows and leave the record map whole. -/
structure Runs (touched : Frn → Prop) (ix ix' : VolumeIndex) : Prop where
  steps : Steps touched ix ix'
  tenants : ∃ chains, ix'.Tenants chains

theorem Does.runs {after : Rows} (does : Does touched ix ix' after) :
    Runs touched ix ix' := ⟨does.steps, does.tenants⟩

theorem Runs.refl (inv : ix.Invariant) : Runs touched ix ix :=
  ⟨.refl, inv.tenants⟩

theorem Runs.trans {ix₁ ix₂ ix₃ : VolumeIndex} (first : Runs touched ix₁ ix₂)
    (second : Runs touched ix₂ ix₃) : Runs touched ix₁ ix₃ := ⟨first.steps.trans second.steps, second.tenants⟩

theorem Runs.weaken {touched' : Frn → Prop} (runs : Runs touched ix ix')
    (weaker : ∀ frn, touched frn → touched' frn) : Runs touched' ix ix' :=
  ⟨Steps.weaken weaker runs.steps, runs.tenants⟩

theorem Runs.invariant (runs : Runs touched ix ix') (inv : ix.Invariant) :
    ix'.Invariant := ⟨Steps.integrity runs.steps inv.integrity, runs.tenants⟩

section Relink

variable {next : EntryIdx → Option EntryIdx} {kept : List EntryIdx}

omit [Externals] in
theorem relink_of_not_mem {e : EntryIdx} (out : e ∉ kept) : relink next kept e = next e := by
  induction kept generalizing next with
  | nil => rfl
  | cons first rest ih =>
    rw [relink, ih fun mem => out (by simp [mem]), update_of_ne fun same => out (by simp [same])]

omit [Externals] in
theorem linked_relink (distinct : kept.Nodup) : Linked (relink next kept) kept.head? kept := by
  induction kept generalizing next with
  | nil => rfl
  | cons first rest ih =>
    obtain ⟨apart, distinct⟩ := nodup_cons.mp distinct
    refine ⟨rfl, ?_⟩
    rw [relink, relink_of_not_mem apart, update_self]
    exact ih distinct

end Relink

section Match

variable {base : VolumeIndex} {frn : Frn} {isDir : Bool} {size : UInt64} {mtime : Int64}
  {m : Matching} {links : List (LinkTarget × EntryIdx)} {head : EntryIdx}

/-- What the loop over the desired links keeps: the names of `frn` are those kept and those not
    matched yet, and every other entry is as it was. -/
structure Matched (base : VolumeIndex) (frn : Frn) (m : Matching) : Prop where
  steps : Steps (fun _ => False) base m.index
  byFrn : m.index.byFrn = base.byFrn
  lost : m.index.lostFound = base.lostFound
  same : ∀ e, base.Live e → m.index.Live e ∧ m.index.entries.frn e = base.entries.frn e ∧
    m.index.entries.nextLink e = base.entries.nextLink e
  old : ∀ e, m.index.Live e → base.Live e ∨ e ∈ m.kept
  mine : ∀ e, e ∈ m.kept ++ m.unused ↔
    m.index.Live e ∧ e ≠ base.lostFound ∧ (m.index.entries.frn e).recordNumber = frn.recordNumber
  frns : ∀ e ∈ m.kept ++ m.unused, m.index.entries.frn e = frn
  distinct : (m.kept ++ m.unused).Nodup

theorem Matched.step (matched : Matched base frn m) (ok : base.Integrity) (link : LinkTarget × EntryIdx)
    (parentLive : base.Live link.2) : Matched base frn (matchLink frn isDir size mtime m link) := by
  unfold matchLink
  simp only
  split
  case h_1 e found =>
    have mem : e ∈ m.unused := mem_of_find?_eq_some found
    have perm : ((m.kept ++ [e]) ++ m.unused.erase e).Perm (m.kept ++ m.unused) := by
      rw [append_assoc]
      exact (perm_cons_erase mem).symm.append_left m.kept
    refine ⟨matched.steps, matched.byFrn, matched.lost, matched.same, fun e live => ?_, fun e => ?_, fun e inside => ?_, ?_⟩
    · exact (matched.old e live).imp_right fun inside => mem_append_left _ inside
    · rw [perm.mem_iff]
      exact matched.mine e
    · exact matched.frns e (perm.mem_iff.mp inside)
    · exact perm.nodup_iff.mpr matched.distinct
  case h_2 =>
    have ok' := Steps.integrity matched.steps ok
    have added := ok'.newEntry frn link.1.name.bytes { dir := isDir, nonUnicodeName := link.1.name.lossy } size mtime
      (matched.same _ parentLive).1 rfl
    have prim : Prim (fun _ => False) m.index _ := .add frn link.1.name.bytes
      { dir := isDir, nonUnicodeName := link.1.name.lossy } size mtime (matched.same _ parentLive).1 rfl ⟨rfl, nofun⟩
    set new := m.index.newEntry frn link.2 link.1.name.bytes { dir := isDir, nonUnicodeName := link.1.name.lossy } size mtime
    set placed := new.1.dirIndexInsert new.2
    have fresh : ∀ e, base.Live e → e ≠ new.2 := fun e live same => added.fresh (same ▸ (matched.same e live).1)
    have notLost : new.2 ≠ base.lostFound := fun same => added.fresh (same ▸ matched.lost ▸ ok'.lost_live)
    have outside : new.2 ∉ m.kept ++ m.unused := fun inside => added.fresh ((matched.mine _).mp inside).1
    have perm : ((m.kept ++ [new.2]) ++ m.unused).Perm (new.2 :: (m.kept ++ m.unused)) := by
      rw [append_assoc]
      exact perm_middle
    refine ⟨?_, ?_, ?_, fun e live => ?_, fun e live => ?_, fun e => ?_, fun e inside => ?_, ?_⟩
    · exact .tail (matched.steps.tail prim) (.relabel placed.byFrn placed.entries.nextLink placed.entries.size
        placed.entries.mtime placed.stats (placed.dirty + 1) placed.generation (.same rfl))
    · exact added.byFrn.trans matched.byFrn
    · exact added.frame.lostFound.trans matched.lost
    · obtain ⟨live', frnSame, nextSame⟩ := matched.same e live
      have same := added.same e live'
      exact ⟨(added.live e).mpr (.inl live'), same.frn.trans frnSame, same.nextLink.trans nextSame⟩
    · rcases (added.live e).mp live with live | rfl
      · exact (matched.old e live).imp_right fun inside => mem_append_left _ inside
      · exact .inr (by simp)
    · rw [perm.mem_iff, mem_cons, matched.mine e]
      show _ ↔ placed.Live e ∧ e ≠ base.lostFound ∧ (placed.entries.frn e).recordNumber = frn.recordNumber
      rw [added.live e]
      by_cases same : e = new.2
      · rw [same, added.entry.frn]
        simp [notLost]
      · simp only [same, false_or, or_false]
        exact and_congr_right fun live => by rw [(added.same e live).frn]
    · rcases mem_cons.mp (perm.mem_iff.mp inside) with rfl | inside
      · exact added.entry.frn
      · exact (added.same e ((matched.mine e).mp inside).1).frn.trans (matched.frns e inside)
    · exact perm.nodup_iff.mpr (nodup_cons.mpr ⟨outside, matched.distinct⟩)

theorem Matched.all (matched : Matched base frn m) (isDir : Bool) (size : UInt64) (mtime : Int64) (ok : base.Integrity) (parentsLive : ∀ link ∈ links, base.Live link.2) :
    Matched base frn (links.foldl (matchLink frn isDir size mtime) m) := by
  induction links generalizing m with
  | nil => exact matched
  | cons link rest ih =>
    exact ih (matched.step ok link (parentsLive link (by simp))) fun other mem => parentsLive other (by simp [mem])

theorem kept_ne_nil (some_ : links ≠ [] ∨ m.kept ≠ []) :
    (links.foldl (matchLink frn isDir size mtime) m).kept ≠ [] := by
  induction links generalizing m with
  | nil => simpa using some_
  | cons link rest ih =>
    refine ih (.inr ?_)
    unfold matchLink
    simp only
    split <;> simp

def Matching.cleared (m : Matching) : VolumeIndex := m.unused.foldl removeEntry m.index

def Matching.finished (m : Matching) (frn : Frn) (head : EntryIdx) : VolumeIndex :=
  { m.cleared with
    entries := { m.cleared.entries with nextLink := relink m.cleared.entries.nextLink m.kept }
    byFrn := m.cleared.byFrn.set frn.recordNumber head }

variable (matched : Matched base frn m)
include matched

theorem Matched.unused_live :
    ∀ e ∈ m.unused, m.index.Live e ∧ e ≠ m.index.lostFound := fun e mem => by
  have mine := (matched.mine e).mp (mem_append_right _ mem)
  exact ⟨mine.1, matched.lost ▸ mine.2.1⟩

variable (ok : base.Integrity)
include ok

theorem Matched.removed :
    Removed m.index m.unused m.cleared :=
  (Steps.integrity matched.steps ok).removeAll (nodup_append.mp matched.distinct).2.1 matched.unused_live

theorem Matched.kept_live :
    ∀ e ∈ m.kept, m.cleared.Live e ∧ m.cleared.entries.frn e = frn := by
  intro e mem
  have distinct := nodup_append.mp matched.distinct
  have mine := (matched.mine e).mp (mem_append_left _ mem)
  have still := ((matched.removed ok).live e).mpr ⟨mine.1, fun inside => distinct.2.2 e mem e inside rfl⟩
  exact ⟨still, ((matched.removed ok).same e still).frn.trans (matched.frns e (mem_append_left _ mem))⟩

theorem Matched.links_finished (first : m.kept.head? = some head) : (m.finished frn head).links frn = m.kept := by
  have own := (matched.kept_live ok head (mem_of_mem_head? first)).2
  have found : (m.finished frn head).headOf frn = some head :=
    headOf_some_iff.mpr ⟨by simp [Matching.finished, FrnMap.get_set], own⟩
  have linked : Linked (m.finished frn head).entries.nextLink (some head) m.kept := by
    rw [← first]
    exact linked_relink (nodup_append.mp matched.distinct).1
  rw [links, found]
  exact linked.walk_eq (linked.length_le fun e mem =>
    (matched.removed ok).integrity.slots.live_lt e (matched.kept_live ok e mem).1)

theorem Matched.finish (tenants : base.Tenants chains) (first : m.kept.head? = some head) :
    Runs (· = frn) base (m.finished frn head) := by
  unfold Matching.finished
  have removed := matched.removed ok
  have kept := matched.kept_live ok
  have ok' := Steps.integrity matched.steps ok
  have lostSame := matched.lost
  have distinct := nodup_append.mp matched.distinct
  set cleared := m.cleared
  have removing : Steps (· = frn) m.index cleared := ok'.removeAll_steps distinct.2.1 matched.unused_live fun e mem =>
    matched.frns e (mem_append_right _ mem)
  have heads : KeepsHeads (· = frn) cleared (cleared.byFrn.set frn.recordNumber head) := by
    intro g other untouched still found
    obtain ⟨mapped, own⟩ := headOf_some_iff.mp found
    rw [FrnMap.get_set, if_neg, mapped]
    intro here
    rw [removed.byFrn, matched.byFrn] at mapped
    obtain ⟨live, gone⟩ := (removed.live other).mp still
    obtain ⟨-, notLost, -⟩ := (tenants.mem _ other).mp (tenants.head_mem mapped)
    have frnSame := (removed.same other still).frn
    have record : (m.index.entries.frn other).recordNumber = frn.recordNumber := by rw [← frnSame, own, here]
    have mine := (matched.mine other).mpr ⟨live, notLost, record⟩
    exact untouched ((own.symm.trans frnSame).trans (matched.frns other mine))
  have steps : Steps (· = frn) base
      { cleared with
        entries := { cleared.entries with nextLink := relink cleared.entries.nextLink m.kept }
        byFrn := cleared.byFrn.set frn.recordNumber head } :=
    .tail ((Steps.weaken (fun _ => False.elim) matched.steps).trans removing)
      (.relabel (cleared.byFrn.set frn.recordNumber head) (relink cleared.entries.nextLink m.kept) cleared.entries.size
        cleared.entries.mtime cleared.stats cleared.dirty cleared.generation heads)
  have lost : cleared.lostFound = base.lostFound := removed.frame.lostFound.trans lostSame
  -- an entry of another record number is neither kept nor removed
  have other : ∀ e, base.Live e → (base.entries.frn e).recordNumber ≠ frn.recordNumber → cleared.Live e ∧ e ∉ m.kept ∧
      cleared.entries.frn e = base.entries.frn e ∧ cleared.entries.nextLink e = base.entries.nextLink e := by
    intro e live away
    obtain ⟨live', frnSame, nextSame⟩ := matched.same e live
    have outside : e ∉ m.kept ++ m.unused := fun inside => away (frnSame ▸ ((matched.mine e).mp inside).2.2)
    have still := (removed.live e).mpr ⟨live', fun inside => outside (mem_append_right _ inside)⟩
    have same := removed.same e still
    exact ⟨still, fun inside => outside (mem_append_left _ inside), same.frn.trans frnSame,
      same.nextLink.trans nextSame⟩
  refine ⟨steps, update chains frn.recordNumber m.kept, tenants.replace lost (fun r here => ?_) ?_ (fun e => ?_) ?_ (fun e => ?_)
    fun e live away => ?_⟩
  · simp only [FrnMap.get_set, if_neg here, removed.byFrn, matched.byFrn]
  · simp only [FrnMap.get_set, if_true, ← first]
    exact linked_relink distinct.1
  · show _ ↔ cleared.Live e ∧ _ ∧ (cleared.entries.frn e).recordNumber = _
    constructor
    · intro mem
      have mine := (matched.mine e).mp (mem_append_left _ mem)
      exact ⟨(kept e mem).1, mine.2.1, by rw [(kept e mem).2]⟩
    · rintro ⟨still, notLost, at_⟩
      obtain ⟨live, gone⟩ := (removed.live e).mp still
      rw [(removed.same e still).frn] at at_
      exact (mem_append.mp ((matched.mine e).mpr ⟨live, notLost, at_⟩)).resolve_right gone
  · intro a ha b hb
    exact (kept a ha).2.trans (kept b hb).2.symm
  · show cleared.Live e ∧ (cleared.entries.frn e).recordNumber ≠ _ ↔ _
    constructor
    · rintro ⟨still, away⟩
      rcases matched.old e ((removed.live e).mp still).1 with old | inside
      · exact ⟨old, by rwa [(removed.same e still).frn, (matched.same e old).2.1] at away⟩
      · exact absurd (by rw [(kept e inside).2]) away
    · rintro ⟨live, away⟩
      obtain ⟨still, -, same, -⟩ := other e live away
      exact ⟨still, same ▸ away⟩
  · obtain ⟨-, outside, same, next⟩ := other e live away
    exact ⟨same, (relink_of_not_mem outside).trans next⟩

end Match

section SetLinks

variable {ix : VolumeIndex} {desired : List LinkTarget}

def Present (ix : VolumeIndex) (frn : Frn) : Prop := ∃ e, ix.Live e ∧ e ≠ ix.lostFound ∧ ix.entries.frn e = frn

theorem Invariant.present_iff (inv : ix.Invariant) {frn : Frn} : ix.Present frn ↔ ix.rows frn ≠ [] := by
  obtain ⟨chains, tenants⟩ := inv.tenants
  exact (tenants.rows_ne_nil inv.integrity).symm

theorem Invariant.reclaimed_links (inv : ix.Invariant) (frn : Frn)
    (tenants : (ix.reclaimStale frn).Tenants chains) : ix.links frn = chains frn.recordNumber := by
  cases found : ix.headOf frn with
  | some head =>
    obtain ⟨first, own⟩ := headOf_some_iff.mp found
    have same : ix.reclaimStale frn = ix := by simp [VolumeIndex.reclaimStale, first, own]
    rw [same] at tenants
    exact tenants.links_of_head inv.integrity found
  | none =>
    have reclaimed := inv.reclaimStale frn
    have free : (ix.reclaimStale frn).byFrn.get frn.recordNumber = none :=
        (reclaimed.invariant inv).free_of_rows fun g record => by
      rw [reclaimed.rows, Rows.destroy_eq_nil]
      by_cases same : g = frn
      · exact .inr (same ▸ inv.headOf_none_iff.mp found)
      · exact .inl ⟨same, record⟩
    have first := (tenants.linked frn.recordNumber).head
    rw [free] at first
    rw [links_of_no_head found, head?_eq_none_iff.mp first.symm]

def placed (ix : VolumeIndex) (frn : Frn) (desired : List LinkTarget) : List (LinkTarget × EntryIdx) :=
  let reclaimed := ix.reclaimStale frn
  desired.zip (desired.map fun t => if reclaimed.entries.isTombstone t.parent then reclaimed.lostFound else t.parent)

def chainSize (ix : VolumeIndex) (frn : Frn) : UInt64 :=
  ((ix.links frn).head?.map (ix.reclaimStale frn).entries.size).getD sizeUnknown

def chainMtime (ix : VolumeIndex) (frn : Frn) : Int64 :=
  ((ix.links frn).head?.map (ix.reclaimStale frn).entries.mtime).getD mtimeUnknown

def matching (ix : VolumeIndex) (frn : Frn) (isDir : Bool) (desired : List LinkTarget) : Matching :=
  (ix.placed frn desired).foldl (matchLink frn isDir (ix.chainSize frn) (ix.chainMtime frn))
    { index := ix.reclaimStale frn, unused := ix.links frn, kept := [] }

theorem Invariant.matched_start (inv : ix.Invariant) (frn : Frn) :
    Matched (ix.reclaimStale frn) frn { index := ix.reclaimStale frn, unused := ix.links frn, kept := [] } := by
  obtain ⟨chains, tenants⟩ := ((inv.reclaimStale frn).invariant inv).tenants
  have current := inv.reclaimed_links frn tenants
  refine ⟨.refl, rfl, rfl, fun e live => ⟨live, rfl, rfl⟩, fun e live => .inl live, fun e => ?_, fun e mem => ?_, ?_⟩
  · rw [nil_append, current]
    exact tenants.mem _ e
  · cases found : ix.headOf frn with
    | none => simp [links_of_no_head found] at mem
    | some head =>
      obtain ⟨first, own⟩ := headOf_some_iff.mp found
      have same : ix.reclaimStale frn = ix := by simp [VolumeIndex.reclaimStale, first, own]
      obtain ⟨chains, tenants⟩ := inv.tenants
      show (ix.reclaimStale frn).entries.frn e = frn
      rw [same]
      exact ((tenants.mem_links inv.integrity).mp (by simpa using mem)).2.2
  · rw [nil_append, current]
    exact (tenants.linked _).nodup

theorem Invariant.placed_live (inv : ix.Invariant) (frn : Frn) (desired : List LinkTarget) :
    ∀ link ∈ ix.placed frn desired, (ix.reclaimStale frn).Live link.2 := by
  intro link mem
  obtain ⟨t, -, at_⟩ := mem_map.mp (of_mem_zip mem).2
  rw [← at_]
  split
  · exact ((inv.reclaimStale frn).invariant inv).integrity.lost_live
  case isFalse alive => exact Bool.eq_false_iff.mpr alive

theorem Invariant.matched (inv : ix.Invariant) (frn : Frn) (isDir : Bool) (desired : List LinkTarget) :
    Matched (ix.reclaimStale frn) frn (ix.matching frn isDir desired) :=
  (inv.matched_start frn).all isDir _ _ ((inv.reclaimStale frn).invariant inv).integrity (inv.placed_live frn desired)

theorem setChainLinks_eq (ix : VolumeIndex) (frn : Frn) (isDir : Bool) (some_ : desired ≠ []) :
    ∃ head, (ix.matching frn isDir desired).kept.head? = some head ∧
      ix.setChainLinks frn isDir desired = (ix.matching frn isDir desired).finished frn head := by
  have kept : (ix.matching frn isDir desired).kept ≠ [] := by
    refine kept_ne_nil (.inl fun empty => some_ ?_)
    have length := congrArg List.length empty
    simpa [placed] using length
  have first := head?_eq_some_head kept
  refine ⟨_, first, ?_⟩
  unfold VolumeIndex.setChainLinks
  dsimp only
  split
  case h_1 head found =>
    rw [Option.some.inj (found.symm.trans first)]
    rfl
  case h_2 found => cases found.symm.trans first

theorem Invariant.setChainLinks (inv : ix.Invariant) (frn : Frn) (isDir : Bool)
    (some_ : desired ≠ []) : Runs (fun g => g = frn ∨ frn.Stale g) ix (ix.setChainLinks frn isDir desired) ∧
      (ix.setChainLinks frn isDir desired).Present frn := by
  have reclaimed := inv.reclaimStale frn
  have inv' := reclaimed.invariant inv
  obtain ⟨chains, tenants⟩ := inv'.tenants
  have matched := inv.matched frn isDir desired
  obtain ⟨head, first, same⟩ := ix.setChainLinks_eq frn isDir some_
  rw [same]
  have finished := matched.finish inv'.integrity tenants first
  refine ⟨(reclaimed.runs.weaken fun _ stale => .inr stale).trans (finished.weaken fun _ same => .inl same), head, ?_⟩
  have mem := mem_of_mem_head? first
  obtain ⟨still, own⟩ := matched.kept_live inv'.integrity head mem
  refine ⟨still, ?_, own⟩
  have lost : (ix.matching frn isDir desired).cleared.lostFound = (ix.reclaimStale frn).lostFound :=
    (matched.removed inv'.integrity).frame.lostFound.trans matched.lost
  exact lost ▸ ((matched.mine head).mp (mem_append_left _ mem)).2.1

end SetLinks

variable {ix : VolumeIndex} {frn : Frn} {parent : EntryIdx}

theorem Integrity.newEntry_name (ok : ix.Integrity) (frn : Frn) (parentLive : ix.Live parent)
    (name : Bytes) (nameLossy : Bool) :
    let new := ix.newEntry frn parent name { nonUnicodeName := nameLossy } sizeUnknown mtimeUnknown
    Added ix frn parent name { nonUnicodeName := nameLossy } sizeUnknown mtimeUnknown new.1 new.2 ∧
      Prim (fun _ => False) ix new.1 := by
  have added := ok.newEntry frn name { nonUnicodeName := nameLossy } sizeUnknown mtimeUnknown parentLive rfl
  have prim : Prim (fun _ => False) ix _ := .add frn name { nonUnicodeName := nameLossy } sizeUnknown mtimeUnknown
    parentLive rfl ⟨rfl, nofun⟩
  intro new
  have plain : new.1.dirIndexInsert new.2 = new.1 := by
    refine dirIndexInsert_of_not_indexed ?_
    have flags : new.1.entries.flags new.2 = { nonUnicodeName := nameLossy } := added.entry.flags
    simp [indexed, flags]
  rw [plain] at added prim
  exact ⟨added, prim⟩

theorem Invariant.addLink_eq (inv : ix.Invariant) (present : ix.Present frn) (parentLive : ix.Live parent)
    (name : Bytes) (nameLossy : Bool) :
    let new := ix.newEntry frn parent name { nonUnicodeName := nameLossy } sizeUnknown mtimeUnknown
    ∃ front tail, ix.links frn = front ++ [tail] ∧ ix.addLink frn parent name nameLossy =
      { new.1 with
        entries := { new.1.entries with nextLink := update new.1.entries.nextLink tail (some new.2) }
        dirty := new.1.dirty + 1 } := by
  obtain ⟨chains, tenants⟩ := inv.tenants
  obtain ⟨added, -⟩ := inv.integrity.newEntry_name frn parentLive name nameLossy
  intro new
  obtain ⟨head, first, own⟩ := inv.mapped_of_rows (inv.present_iff.mp present)
  have headIn := tenants.head_mem first
  have links := tenants.links_of_head inv.integrity (headOf_some_iff.mpr ⟨first, own⟩)
  have old : ∀ e ∈ chains frn.recordNumber, ix.Live e := fun e mem => ((tenants.mem _ e).mp mem).1
  have linked : Linked new.1.entries.nextLink (some head) (chains frn.recordNumber) := by
    rw [← first]
    exact (tenants.linked frn.recordNumber).congr fun e mem => (added.same e (old e mem)).nextLink
  have walked : new.1.linksFrom head = chains frn.recordNumber := linked.walk_eq (linked.length_le fun e mem =>
    added.integrity.slots.live_lt e ((added.live e).mpr (.inl (old e mem))))
  obtain ⟨front, tail, split⟩ : ∃ front tail, chains frn.recordNumber = front ++ [tail] :=
    ⟨_, _, (dropLast_append_getLast (ne_nil_of_mem headIn)).symm⟩
  have found : ((new.1.byFrn.get frn.recordNumber).bind fun head => (new.1.linksFrom head).getLast?) = some tail := by
    rw [added.byFrn, first, Option.bind_some, walked, split]
    simp
  refine ⟨front, tail, links.trans split, ?_⟩
  unfold addLink
  simp only [show ((ix.newEntry frn parent name { nonUnicodeName := nameLossy } sizeUnknown mtimeUnknown).1.byFrn.get
    frn.recordNumber).bind (fun head => ((ix.newEntry frn parent name { nonUnicodeName := nameLossy } sizeUnknown
    mtimeUnknown).1.linksFrom head).getLast?) = some tail from found, new]

theorem Tenants.addLink (tenants : ix.Tenants chains) (ok : ix.Integrity)
    (present : ix.Present frn) (parentLive : ix.Live parent) (name : Bytes) (nameLossy : Bool) :
    (ix.addLink frn parent name nameLossy).Tenants (update chains frn.recordNumber (chains frn.recordNumber ++
      [(ix.newEntry frn parent name { nonUnicodeName := nameLossy } sizeUnknown mtimeUnknown).2])) := by
  have inv : ix.Invariant := ⟨ok, chains, tenants⟩
  obtain ⟨added, -⟩ := ok.newEntry_name frn parentLive name nameLossy
  obtain ⟨front, tail, split, same⟩ := inv.addLink_eq present parentLive name nameLossy
  rw [same]
  set new := ix.newEntry frn parent name { nonUnicodeName := nameLossy } sizeUnknown mtimeUnknown
  have lost : new.1.lostFound = ix.lostFound := added.frame.lostFound
  obtain ⟨head, first, own⟩ := inv.mapped_of_rows (inv.present_iff.mp present)
  rw [tenants.links_of_head ok (headOf_some_iff.mpr ⟨first, own⟩)] at split
  have headIn := tenants.head_mem first
  have linked := tenants.linked frn.recordNumber
  have old : ∀ r e, e ∈ chains r → ix.Live e ∧ e ≠ new.2 := fun r e mem =>
    ⟨((tenants.mem r e).mp mem).1, fun same => added.fresh (same ▸ ((tenants.mem r e).mp mem).1)⟩
  have linked' : Linked new.1.entries.nextLink (some head) (chains frn.recordNumber) := by
    rw [← first]
    exact linked.congr fun e mem => (added.same e (old _ e mem).1).nextLink
  have tailIn : tail ∈ chains frn.recordNumber := by simp [split]
  have notLost : new.2 ≠ ix.lostFound := fun same => added.fresh (same ▸ ok.lost_live)
  have distinct : (front ++ [tail]).Nodup := split ▸ linked.nodup
  have frns : ∀ e ∈ chains frn.recordNumber ++ [new.2], new.1.entries.frn e = frn := by
    intro e mem
    rcases mem_append.mp mem with mem | mem
    · rw [(added.same e (old _ e mem).1).frn, ← own]
      exact tenants.one _ e head mem headIn
    · rw [mem_singleton.mp mem, added.entry.frn]
  refine tenants.replace lost (fun r _ => by rw [added.byFrn]) ?_ (fun e => ?_) (fun a ha b hb => (frns a ha).trans (frns b hb).symm)
    added.others fun e live away => ⟨(added.same e live).frn, ?_⟩
  · show Linked (update new.1.entries.nextLink tail (some new.2)) (new.1.byFrn.get _) _
    rw [added.byFrn]
    have extended := linked'.append_last (update new.1.entries.nextLink tail (some new.2)) new.2 ?_ ?_ ?_
    · rw [first, linked'.head]
      convert extended using 1
      rw [← linked'.head]
      rfl
    · rw [update_of_ne (Ne.symm (old _ tail tailIn).2)]
      exact added.entry.nextLink
    · intro last at_
      have same : last = tail := by simpa [split, eq_comm] using at_
      rw [same, update_self]
    · intro other mem
      refine update_of_ne (fun same => ?_) _ _
      rw [split, dropLast_concat] at mem
      exact (nodup_append.mp distinct).2.2 other mem tail (by simp) same
  · show _ ↔ new.1.Live e ∧ _ ∧ (new.1.entries.frn e).recordNumber = _
    rw [added.live]
    constructor
    · intro mem
      refine ⟨?_, ?_, by rw [frns e mem]⟩ <;> rcases mem_append.mp mem with mem | mem
      · exact .inl (old _ e mem).1
      · exact .inr (mem_singleton.mp mem)
      · exact ((tenants.mem _ e).mp mem).2.1
      · exact mem_singleton.mp mem ▸ notLost
    · rintro ⟨live | rfl, notLost, at_⟩
      · rw [(added.same e live).frn] at at_
        exact mem_append_left _ ((tenants.mem _ e).mpr ⟨live, notLost, at_⟩)
      · simp
  · have other : e ≠ tail := fun same => away (same ▸ ((tenants.mem _ tail).mp tailIn).2.2)
    exact (update_of_ne other _ _).trans (added.same e live).nextLink

theorem Invariant.addLink (inv : ix.Invariant) (present : ix.Present frn) (parentLive : ix.Live parent)
    (name : Bytes) (nameLossy : Bool) : Runs (fun _ => False) ix (ix.addLink frn parent name nameLossy) ∧
      (ix.addLink frn parent name nameLossy).Present frn := by
  obtain ⟨chains, tenants⟩ := inv.tenants
  have tenants' := tenants.addLink inv.integrity present parentLive name nameLossy
  obtain ⟨added, prim⟩ := inv.integrity.newEntry_name frn parentLive name nameLossy
  obtain ⟨-, tail, -, same⟩ := inv.addLink_eq present parentLive name nameLossy
  rw [same] at tenants' ⊢
  set new := ix.newEntry frn parent name { nonUnicodeName := nameLossy } sizeUnknown mtimeUnknown
  refine ⟨⟨.tail (.single prim) (.relabel new.1.byFrn (update new.1.entries.nextLink tail (some new.2)) new.1.entries.size
    new.1.entries.mtime new.1.stats (new.1.dirty + 1) new.1.generation (.same rfl)), _, tenants'⟩, new.2, ?_, ?_, ?_⟩
  · exact (added.live _).mpr (.inr rfl)
  · intro lost
    rw [added.frame.lostFound] at lost
    exact added.fresh (lost ▸ inv.integrity.lost_live)
  · exact added.entry.frn

end Goz.VolumeIndex
