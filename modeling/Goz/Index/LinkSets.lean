import Goz.Index.Reachable

namespace Goz.VolumeIndex

open Function Intrusive List Externals

section Links

variable [Externals]

section Sweep

variable {ix ix' : VolumeIndex} {gone : List EntryIdx} {frn : Frn}

/-- What removing the entries `gone` leaves: their children are under lost+found and every other entry is as it was. -/
structure Swept (ix : VolumeIndex) (gone : List EntryIdx) (ix' : VolumeIndex) : Prop where
  lost : ix'.lostFound = ix.lostFound
  live : ∀ e, ix'.Live e ↔ ix.Live e ∧ e ∉ gone
  same : ∀ e, ix'.Live e → SameEntry ix ix' e
  parents : ∀ e, ix'.Live e →
    ix'.entries.parent e = (ix.entries.parent e).map fun p => if p ∈ gone then ix.lostFound else p

theorem Removed.swept (removed : Removed ix gone ix') : Swept ix gone ix' where
  lost := removed.frame.lostFound
  live := removed.live
  same := removed.same
  parents := by
    intro e live
    rw [removed.parents e live]
    cases ix.entries.parent e with
    | none => simp
    | some p => by_cases inside : p ∈ gone <;> simp [inside]

omit [Externals] in
theorem Swept.refl (ix : VolumeIndex) : Swept ix [] ix where
  lost := rfl
  live := by simp
  same := fun _ _ => ⟨rfl, rfl, rfl, rfl, rfl, rfl, rfl⟩
  parents := by simp

omit [Externals] in
theorem Swept.reads {ix'' : VolumeIndex} (swept : Swept ix gone ix') (entries : ix''.entries = ix'.entries)
    (names : ix''.names = ix'.names) (lost : ix''.lostFound = ix'.lostFound) : Swept ix gone ix'' where
  lost := lost.trans swept.lost
  live e := by
    rw [VolumeIndex.Live, entries]
    exact swept.live e
  same e live := by
    rw [VolumeIndex.Live, entries] at live
    obtain ⟨frn, flags, size, mtime, next, raw, folded⟩ := swept.same e live
    exact ⟨by rw [entries, frn], by rw [entries, flags], by rw [entries, size], by rw [entries, mtime],
      by rw [entries, next], by rw [rawName, entries, names]; exact raw, by rw [foldedName, entries, names]; exact folded⟩
  parents e live := by
    rw [VolumeIndex.Live, entries] at live
    rw [entries, swept.parents e live]

def OldTenant (ix : VolumeIndex) (frn : Frn) (e : EntryIdx) : Prop :=
  ix.Live e ∧ e ≠ ix.lostFound ∧ frn.Stale (ix.entries.frn e)

instance (ix : VolumeIndex) (frn : Frn) (e : EntryIdx) : Decidable (ix.OldTenant frn e) :=
  inferInstanceAs (Decidable (_ ∧ _))

theorem Invariant.swept_reclaimStale (inv : ix.Invariant) (frn : Frn) :
    ∃ gone, (∀ e, e ∈ gone ↔ ix.OldTenant frn e) ∧ Swept ix gone (ix.reclaimStale frn) := by
  obtain ⟨chains, tenants⟩ := inv.tenants
  have mem : ∀ e, ix.OldTenant frn e ↔ e ∈ chains frn.recordNumber ∧ ix.entries.frn e ≠ frn := by
    intro e
    rw [tenants.mem]
    constructor
    · rintro ⟨live, notLost, ne, record⟩
      exact ⟨⟨live, notLost, record⟩, ne⟩
    · rintro ⟨⟨live, notLost, record⟩, ne⟩
      exact ⟨live, notLost, ne, record⟩
  unfold VolumeIndex.reclaimStale
  split
  case h_1 free =>
    have empty : chains frn.recordNumber = [] := by
      have first := (tenants.linked frn.recordNumber).head
      rw [free] at first
      exact head?_eq_none_iff.mp first.symm
    exact ⟨[], fun e => by simp [mem e, empty], Swept.refl ix⟩
  case h_2 head first =>
    have one : ∀ e ∈ chains frn.recordNumber, ix.entries.frn e = ix.entries.frn head := fun e inside =>
      tenants.one _ e head inside (tenants.head_mem first)
    split
    case isTrue other =>
      obtain ⟨removed, -⟩ := tenants.tombstoneChain inv.integrity first
      refine ⟨chains frn.recordNumber, fun e => ?_, ?_⟩
      · rw [mem e]
        exact ⟨fun inside => ⟨inside, by rw [one e inside]; exact other⟩, And.left⟩
      · exact removed.swept.reads rfl rfl rfl
    case isFalse own =>
      refine ⟨[], fun e => ?_, Swept.refl ix⟩
      rw [mem e]
      simp only [not_mem_nil, false_iff, not_and, not_not]
      intro inside
      rw [one e inside]
      exact not_not.mp own

theorem Invariant.swept_deleteFrn (inv : ix.Invariant) (frn : Frn) :
    Swept ix (ix.links frn) (ix.deleteFrn frn).1 ∧ (ix.deleteFrn frn).1.links frn = [] := by
  have empty : (ix.deleteFrn frn).1.links frn = [] := by
    have rows := (inv.deleteFrn frn).rows
    have gone : (ix.deleteFrn frn).1.rows frn = [] := by
      rw [rows, Rows.delete, Rows.destroy_eq_nil]
      exact .inl rfl
    exact map_eq_nil_iff.mp gone
  refine ⟨?_, empty⟩
  unfold VolumeIndex.deleteFrn
  split
  case h_1 missing =>
    rw [links_of_no_head missing]
    exact Swept.refl ix
  case h_2 head found =>
    obtain ⟨chains, tenants⟩ := inv.tenants
    rw [tenants.links_of_head inv.integrity found]
    obtain ⟨removed, -⟩ := tenants.tombstoneChain inv.integrity (headOf_some_iff.mp found).1
    exact removed.swept.reads rfl rfl rfl

end Sweep

section Fit

variable {base : VolumeIndex} {frn : Frn} {current : List EntryIdx} {isDir : Bool} {size : UInt64} {mtime : Int64}
  {done : List (LinkTarget × EntryIdx)} {m : Matching}

/-- The entry is the link: an entry of the old chain, or a new one with the size and date of the chain. -/
structure IsLink (base index : VolumeIndex) (current : List EntryIdx) (size : UInt64) (mtime : Int64)
    (link : LinkTarget × EntryIdx) (e : EntryIdx) : Prop where
  live : index.Live e
  parent : index.entries.parent e = some link.2
  name : index.rawName e = link.1.name.bytes
  origin : e ∈ current ∨ ¬ base.Live e ∧ index.entries.size e = size ∧ index.entries.mtime e = mtime

/-- How far the loop over the desired links has come, once it has seen `done`. -/
structure Fitted (base : VolumeIndex) (current : List EntryIdx) (size : UInt64) (mtime : Int64)
    (done : List (LinkTarget × EntryIdx)) (m : Matching) : Prop where
  same : ∀ e, base.Live e → SameEntry base m.index e ∧ m.index.entries.parent e = base.entries.parent e
  links : Forall₂ (IsLink base m.index current size mtime) done m.kept
  all : ∀ e, e ∈ current → e ∈ m.kept ∨ e ∈ m.unused
  left : ∀ e ∈ m.unused, e ∈ current
  spent : ∀ link e, (link, e) ∈ done.zip m.kept → e ∉ current → ∀ old ∈ m.unused,
    ¬ (base.entries.parent old = some link.2 ∧ base.rawName old = link.1.name.bytes)

theorem Fitted.step (fitted : Fitted base current size mtime done m) (matched : Matched base frn m) (ok : base.Integrity)
    (inside : ∀ e ∈ current, base.Live e) (link : LinkTarget × EntryIdx) (parentLive : base.Live link.2) :
    Fitted base current size mtime (done ++ [link]) (matchLink frn isDir size mtime m link) := by
  have even := fitted.links.length_eq
  unfold matchLink
  dsimp only
  split
  case h_1 e found =>
    have mem : e ∈ m.unused := mem_of_find?_eq_some found
    have here := find?_some found
    simp only [Bool.and_eq_true, decide_eq_true_eq] at here
    constructor
    · exact fitted.same
    · have live := (matched.same e (inside e (fitted.left e mem))).1
      exact rel_append fitted.links (.cons ⟨live, here.1, here.2, .inl (fitted.left e mem)⟩ .nil)
    · intro x old
      by_cases same : x = e
      · exact .inl (by simp [same])
      · rcases fitted.all x old with kept | unused
        · exact .inl (mem_append_left _ kept)
        · exact .inr ((mem_erase_of_ne same).mpr unused)
    · intro x unused
      exact fitted.left x (mem_of_mem_erase unused)
    · intro other x paired new old unused
      rw [zip_append even] at paired
      rcases mem_append.mp paired with before | last
      · exact fitted.spent other x before new old (mem_of_mem_erase unused)
      · obtain ⟨-, rfl⟩ : other = link ∧ x = e := by simpa using last
        exact absurd (fitted.left x mem) new
  case h_2 missing =>
    have ok' := Steps.integrity matched.steps ok
    have added := ok'.newEntry frn link.1.name.bytes { dir := isDir, nonUnicodeName := link.1.name.lossy } size mtime
      (matched.same _ parentLive).1 rfl
    set new := m.index.newEntry frn link.2 link.1.name.bytes { dir := isDir, nonUnicodeName := link.1.name.lossy } size mtime
    have fresh : ¬ base.Live new.2 := fun live => added.fresh (matched.same _ live).1
    have still : ∀ e, m.index.Live e → SameEntry m.index (new.1.dirIndexInsert new.2) e ∧
        (new.1.dirIndexInsert new.2).entries.parent e = m.index.entries.parent e := fun e live =>
      ⟨added.same e live, added.parents e live⟩
    constructor
    · intro e live
      obtain ⟨same, parent⟩ := fitted.same e live
      obtain ⟨same', parent'⟩ := still e (matched.same e live).1
      have whole := same.trans same'
      exact ⟨{ whole with }, parent'.trans parent⟩
    · apply rel_append
      · apply fitted.links.imp
        intro other e is
        obtain ⟨same, parent⟩ := still e is.live
        refine ⟨(added.live e).mpr (.inl is.live), parent.trans is.parent, same.rawName.trans is.name, ?_⟩
        exact is.origin.imp_right fun ⟨new_, sized, dated⟩ => ⟨new_, same.size.trans sized, same.mtime.trans dated⟩
      · refine .cons ⟨(added.live _).mpr (.inr rfl), added.entry.parent, added.entry.rawName, .inr ⟨fresh, ?_, ?_⟩⟩ .nil
        · exact added.entry.size
        · exact added.entry.mtime
    · intro x old
      exact (fitted.all x old).imp_left (mem_append_left _)
    · exact fitted.left
    · intro other x paired new_ old unused
      rw [zip_append even] at paired
      rcases mem_append.mp paired with before | last
      · exact fitted.spent other x before new_ old unused
      · obtain ⟨rfl, -⟩ : other = link ∧ x = new.2 := by simpa using last
        have apart := find?_eq_none.mp missing old unused
        obtain ⟨same, parent⟩ := fitted.same old (inside old (fitted.left old unused))
        simpa [parent, same.rawName] using apart

theorem Fitted.all_links (fitted : Fitted base current size mtime done m) (matched : Matched base frn m) (ok : base.Integrity)
    (inside : ∀ e ∈ current, base.Live e) {links : List (LinkTarget × EntryIdx)}
    (parentsLive : ∀ link ∈ links, base.Live link.2) :
    Fitted base current size mtime (done ++ links) (links.foldl (matchLink frn isDir size mtime) m) := by
  induction links generalizing m done with
  | nil => simpa using fitted
  | cons link rest ih =>
    have live := parentsLive link (by simp)
    have one : Matched base frn (matchLink frn isDir size mtime m link) := matched.step ok link live
    have next := ih (fitted.step matched ok inside link live) one fun other mem => parentsLive other (by simp [mem])
    simpa using next

end Fit

section Reconcile

variable {ix : VolumeIndex} {frn : Frn} {actual : List LinkTarget}

theorem Invariant.fitted (inv : ix.Invariant) (frn : Frn) (isDir : Bool) (desired : List LinkTarget) :
    Fitted (ix.reclaimStale frn) (ix.links frn) (ix.chainSize frn) (ix.chainMtime frn) (ix.placed frn desired)
      (ix.matching frn isDir desired) := by
  have start := inv.matched_start frn
  have inside : ∀ e ∈ ix.links frn, (ix.reclaimStale frn).Live e := fun e mem => ((start.mine e).mp (by simpa using mem)).1
  have none_ : Fitted (ix.reclaimStale frn) (ix.links frn) (ix.chainSize frn) (ix.chainMtime frn) []
      { index := ix.reclaimStale frn, unused := ix.links frn, kept := [] } :=
    ⟨fun _ _ => ⟨⟨rfl, rfl, rfl, rfl, rfl, rfl, rfl⟩, rfl⟩, .nil, fun _ => .inr, fun _ => id, by simp⟩
  exact none_.all_links start ((inv.reclaimStale frn).invariant inv).integrity inside (inv.placed_live frn desired)

theorem Invariant.mem_unused (inv : ix.Invariant) (frn : Frn) (isDir : Bool) (desired : List LinkTarget) {e : EntryIdx} :
    e ∈ (ix.matching frn isDir desired).unused ↔ e ∈ ix.links frn ∧ e ∉ (ix.matching frn isDir desired).kept := by
  have fitted := inv.fitted frn isDir desired
  have distinct := nodup_append.mp (inv.matched frn isDir desired).distinct
  constructor
  · exact fun inside => ⟨fitted.left e inside, fun kept => distinct.2.2 e kept e inside rfl⟩
  · exact fun ⟨old, notKept⟩ => (fitted.all e old).resolve_left notKept

/-- The entry is gone from `ix'`: it was of the old tenant of the record, or a link of the file that is no longer one. -/
def Gone (ix : VolumeIndex) (frn : Frn) (ix' : VolumeIndex) (e : EntryIdx) : Prop :=
  ix.OldTenant frn e ∨ e ∈ ix.links frn ∧ e ∉ ix'.links frn

instance (ix : VolumeIndex) (frn : Frn) (ix' : VolumeIndex) (e : EntryIdx) : Decidable (Gone ix frn ix' e) :=
  inferInstanceAs (Decidable (_ ∨ _))

/-- The folder an entry under `p` is in, once the entries of `ix` that are gone from `ix'` are. -/
def rehomed (ix : VolumeIndex) (frn : Frn) (ix' : VolumeIndex) (p : EntryIdx) : EntryIdx :=
  if Gone ix frn ix' p then ix.lostFound else p

/-- What reconciling the links of `frn` with the list `actual` leaves. -/
structure Reconciled (ix : VolumeIndex) (frn : Frn) (actual : List LinkTarget) (ix' : VolumeIndex) : Prop where
  chain : Forall₂ (fun t e => ix'.entries.parent e = some (rehomed ix frn ix' t.parent) ∧ ix'.rawName e = t.name.bytes)
    actual (ix'.links frn)
  kept : ∀ t e, (t, e) ∈ actual.zip (ix'.links frn) → e ∈ ix.links frn →
    ix.entries.parent e = some t.parent ∧ ix.rawName e = t.name.bytes ∧
      ix'.entries.size e = ix.entries.size e ∧ ix'.entries.mtime e = ix.entries.mtime e
  fresh : ∀ t e, (t, e) ∈ actual.zip (ix'.links frn) → e ∉ ix.links frn →
    (ix.Live e → ix.OldTenant frn e) ∧
      ix'.entries.size e = ((ix.links frn).head?.map ix.entries.size).getD sizeUnknown ∧
      ix'.entries.mtime e = ((ix.links frn).head?.map ix.entries.mtime).getD mtimeUnknown
  -- a link gets a new entry only when every old entry that is this link went to another one
  needed : ∀ t e, (t, e) ∈ actual.zip (ix'.links frn) → e ∉ ix.links frn → ∀ old ∈ ix.links frn, old ∉ ix'.links frn →
    ¬ (ix.entries.parent old = some t.parent ∧ ix.rawName old = t.name.bytes)
  others : ∀ e, e ∉ ix.links frn → ¬ ix.OldTenant frn e → ix.Live e → ix'.Live e ∧ SameEntry ix ix' e ∧
    ix'.entries.parent e = (ix.entries.parent e).map (rehomed ix frn ix')
  owned : ∀ e ∈ ix'.links frn, ix'.Live e ∧ ix'.entries.frn e = frn
  nothingElse : ∀ e, ix'.Live e → e ∈ ix'.links frn ∨ ix.Live e ∧ e ∉ ix.links frn ∧ ¬ ix.OldTenant frn e

theorem reclaimStale_of_links (ix : VolumeIndex) (frn : Frn) (some_ : ix.links frn ≠ []) : ix.reclaimStale frn = ix := by
  cases found : ix.headOf frn with
  | none => exact absurd (links_of_no_head found) some_
  | some head =>
    obtain ⟨first, own⟩ := headOf_some_iff.mp found
    simp [reclaimStale, first, own]

theorem head_reclaimed {α : Type} (ix : VolumeIndex) (frn : Frn) (read : VolumeIndex → EntryIdx → α) (unknown : α) :
    ((ix.links frn).head?.map (read (ix.reclaimStale frn))).getD unknown =
      ((ix.links frn).head?.map (read ix)).getD unknown := by
  by_cases empty : ix.links frn = []
  · simp [empty]
  · rw [ix.reclaimStale_of_links frn empty]

def home (ix : VolumeIndex) (frn : Frn) (t : LinkTarget) : EntryIdx :=
  if (ix.reclaimStale frn).entries.isTombstone t.parent then (ix.reclaimStale frn).lostFound else t.parent

theorem placed_eq (ix : VolumeIndex) (frn : Frn) (desired : List LinkTarget) :
    ix.placed frn desired = desired.map fun t => (t, ix.home frn t) := by
  rw [placed]
  induction desired with
  | nil => rfl
  | cons t rest ih => simpa [home] using ih

theorem Invariant.isLink (inv : ix.Invariant) (frn : Frn) (isDir : Bool) (desired : List LinkTarget) :
    (desired.length = (ix.matching frn isDir desired).kept.length) ∧
    ∀ t e, (t, e) ∈ desired.zip (ix.matching frn isDir desired).kept →
      IsLink (ix.reclaimStale frn) (ix.matching frn isDir desired).index (ix.links frn) (ix.chainSize frn) (ix.chainMtime frn)
        (t, ix.home frn t) e := by
  have links := (inv.fitted frn isDir desired).links
  rw [placed_eq, forall₂_map_left_iff, forall₂_iff_zip] at links
  exact ⟨links.1, fun t e paired => links.2 paired⟩

theorem Invariant.names_reconcileLinks (inv : ix.Invariant) (frn : Frn) (some_ : actual ≠ []) :
    (ix.reconcileLinks frn actual).Invariant ∧
    ((ix.reconcileLinks frn actual).links frn).map (ix.reconcileLinks frn actual).rawName = actual.map (·.name.bytes) ∧
    ((ix.reconcileLinks frn actual).links frn).Nodup := by
  have ok := ((inv.reclaimStale frn).invariant inv).integrity
  refine ⟨(inv.reconcileLinks frn actual).invariant inv, ?_⟩
  rw [VolumeIndex.reconcileLinks, if_neg (by simpa using some_)]
  extract_lets isDir
  obtain ⟨head, first, same⟩ := ix.setChainLinks_eq frn isDir some_
  have matched := inv.matched frn isDir actual
  obtain ⟨even, isLink⟩ := inv.isLink frn isDir actual
  rw [same, matched.links_finished ok first]
  refine ⟨?_, (nodup_append.mp matched.distinct).1⟩
  have named : Forall₂ (fun t e => ((ix.matching frn isDir actual).finished frn head).rawName e = t.name.bytes)
      actual (ix.matching frn isDir actual).kept := by
    refine forall₂_iff_zip.mpr ⟨even, fun {t e} paired => ?_⟩
    have still := (matched.kept_live ok e (of_mem_zip paired).2).1
    exact ((matched.removed ok).same e still).rawName.trans (isLink t e paired).name
  rw [← forall₂_eq_eq_eq, forall₂_map_left_iff, forall₂_map_right_iff]
  exact named.flip

theorem Invariant.reconciled (inv : ix.Invariant) (frn : Frn) (isDir : Bool) (live : ∀ t ∈ actual, ix.Live t.parent)
    (some_ : actual ≠ []) : Reconciled ix frn actual (ix.setChainLinks frn isDir actual) := by
  obtain ⟨stale, isStale, swept⟩ := inv.swept_reclaimStale frn
  have ok := ((inv.reclaimStale frn).invariant inv).integrity
  have matched := inv.matched frn isDir actual
  have fitted := inv.fitted frn isDir actual
  obtain ⟨even, isLink⟩ := inv.isLink frn isDir actual
  obtain ⟨head, first, same⟩ := ix.setChainLinks_eq frn isDir some_
  have chain := matched.links_finished ok first
  rw [same]
  set base := ix.reclaimStale frn with reclaimed
  set m := ix.matching frn isDir actual
  have removed := matched.removed ok
  have distinct := nodup_append.mp matched.distinct
  have unused_iff : ∀ e, e ∈ m.unused ↔ e ∈ ix.links frn ∧ e ∉ m.kept := fun e => inv.mem_unused frn isDir actual
  have gone_iff : ∀ e, Gone ix frn (m.finished frn head) e ↔ e ∈ stale ∨ e ∈ m.unused := by
    intro e
    rw [Gone, chain, isStale, unused_iff]
  have mine : ∀ t e, (t, e) ∈ actual.zip m.kept → m.cleared.Live e ∧ SameEntry m.index m.cleared e := by
    intro t e paired
    have still := (matched.kept_live ok e (of_mem_zip paired).2).1
    exact ⟨still, removed.same e still⟩
  have homes : ∀ e, m.cleared.Live e → ∀ at_ : Option EntryIdx,
      m.index.entries.parent e = at_.map (fun p => if p ∈ stale then ix.lostFound else p) →
      m.cleared.entries.parent e = at_.map (rehomed ix frn (m.finished frn head)) := by
    intro e still at_ under
    rw [removed.swept.parents e still, under, Option.map_map, matched.lost, swept.lost]
    congr 1
    funext p
    simp only [comp_apply, rehomed, gone_iff]
    by_cases old : p ∈ stale
    · simp [old]
    · by_cases left : p ∈ m.unused <;> simp [old, left]
  have home_eq : ∀ t ∈ actual, ix.home frn t = if t.parent ∈ stale then ix.lostFound else t.parent := by
    intro t mem
    have dead : base.entries.isTombstone t.parent = true ↔ t.parent ∈ stale := by
      have alive := swept.live t.parent
      rw [and_iff_right (live t mem)] at alive
      rw [← not_iff_not, ← alive, Bool.not_eq_true]
      rfl
    rw [home, ← reclaimed, swept.lost]
    simp only [dead]
  have inPlace : ∀ e ∈ ix.links frn, base = ix := fun e mem =>
    ix.reclaimStale_of_links frn (ne_nil_of_mem mem)
  have before : ∀ e ∈ ix.links frn, base.Live e := fun e mem =>
    ((inv.matched_start frn).mine e |>.mp (by simpa using mem)).1
  have noStale : ∀ e ∈ ix.links frn, ∀ p, ix.Live p → p ∉ stale := fun e mem p alive inside => by
    have both := swept.live p
    rw [inPlace e mem] at both
    exact (both.mp alive).2 inside
  constructor
  · rw [chain, forall₂_iff_zip]
    refine ⟨even, fun {t e} paired => ?_⟩
    have link := isLink t e paired
    obtain ⟨still, kept⟩ := mine t e paired
    have under := link.parent
    rw [home_eq t (of_mem_zip paired).1] at under
    exact ⟨homes e still (some t.parent) under, kept.rawName.trans link.name⟩
  · intro t e paired old
    rw [chain] at paired
    have link := isLink t e paired
    obtain ⟨-, kept⟩ := mine t e paired
    obtain ⟨unchanged, parent⟩ := fitted.same e (before e old)
    have under := link.parent
    have mem := (of_mem_zip paired).1
    rw [home_eq t mem, if_neg (noStale e old t.parent (live t mem)), parent, inPlace e old] at under
    rw [inPlace e old] at unchanged
    exact ⟨under, unchanged.rawName.symm.trans link.name, kept.size.trans unchanged.size, kept.mtime.trans unchanged.mtime⟩
  · intro t e paired new_
    rw [chain] at paired
    obtain ⟨-, kept⟩ := mine t e paired
    obtain ⟨unborn, size, mtime⟩ := (isLink t e paired).origin.resolve_left new_
    refine ⟨fun alive => ?_, ?_, ?_⟩
    · rw [swept.live, not_and_not_right] at unborn
      exact (isStale e).mp (unborn alive)
    · exact kept.size.trans (size.trans (ix.head_reclaimed frn (fun ix => ix.entries.size) sizeUnknown))
    · exact kept.mtime.trans (mtime.trans (ix.head_reclaimed frn (fun ix => ix.entries.mtime) mtimeUnknown))
  · intro t e paired new_ old mem notKept
    rw [chain] at paired notKept
    have placedPair : ((t, ix.home frn t), e) ∈ (ix.placed frn actual).zip m.kept := by
      rw [placed_eq, zip_map_left]
      exact mem_map.mpr ⟨(t, e), paired, rfl⟩
    have apart := fitted.spent _ e placedPair new_ old ((unused_iff old).mpr ⟨mem, notKept⟩)
    have there := (of_mem_zip paired).1
    rw [home_eq t there, if_neg (noStale old mem t.parent (live t there)), inPlace old mem] at apart
    exact apart
  · intro e notMine notOld alive
    have alive' := (swept.live e).mpr ⟨alive, fun inside => notOld ((isStale e).mp inside)⟩
    obtain ⟨unchanged, parent⟩ := fitted.same e alive'
    have still := (removed.live e).mpr ⟨(matched.same e alive').1, fun inside => notMine (fitted.left e inside)⟩
    have whole := ((swept.same e alive').trans unchanged).trans (removed.same e still)
    have notKept : e ∉ m.kept := by
      intro kept
      obtain ⟨chains, tenants⟩ := inv.tenants
      have inside := mem_append_left m.unused kept
      have own := ((swept.same e alive').trans unchanged).frn.symm.trans (matched.frns e inside)
      exact notMine ((tenants.mem_links inv.integrity).mpr ⟨alive, swept.lost ▸ ((matched.mine e).mp inside).2.1, own⟩)
    refine ⟨still, { whole with nextLink := ?_ }, ?_⟩
    · exact (relink_of_not_mem notKept).trans whole.nextLink
    · exact homes e still _ (parent.trans (swept.parents e alive'))
  · rw [chain]
    exact matched.kept_live ok
  · intro e still
    obtain ⟨alive, notLeft⟩ := (removed.live e).mp still
    rw [chain]
    by_cases kept : e ∈ m.kept
    · exact .inl kept
    · obtain ⟨alive, notStale⟩ := (swept.live e).mp ((matched.old e alive).resolve_right kept)
      refine .inr ⟨alive, fun old => notLeft ((unused_iff e).mpr ⟨old, kept⟩), ?_⟩
      exact fun old => notStale ((isStale e).mpr old)

end Reconcile

end Links

def twoNames : Frn := ⟨0x0001000000000007⟩

def linkedIndex : VolumeIndex :=
  letI := ascii
  folderIndex.reconcileLinks twoNames [⟨2, ⟨[0x78], false⟩⟩, ⟨0, ⟨[0x79], false⟩⟩]

theorem reachable_linkedIndex : letI := ascii; Reachable ntfsRootFrn linkedIndex :=
  letI := ascii
  have live : ∀ t ∈ ([⟨2, ⟨[0x78], false⟩⟩, ⟨0, ⟨[0x79], false⟩⟩] : List LinkTarget), folderIndex.Live t.parent := by decide
  .step (.reconcileLinks twoNames _) reachable_folderIndex live

/-- Reconciling the hard links of a file is exact. -/
theorem reconcile_links_exact [Externals] {ix : VolumeIndex} {rootFrn : Frn} (reachable : Reachable rootFrn ix) (frn : Frn)
    {actual : List LinkTarget} (live : ∀ t ∈ actual, ix.Live t.parent) :
    (actual ≠ [] → Reconciled ix frn actual (ix.reconcileLinks frn actual)) ∧
    (actual = [] → Swept ix (ix.links frn) (ix.reconcileLinks frn actual) ∧
      ∀ e, (ix.reconcileLinks frn actual).Live e → e ≠ ix.lostFound → (ix.reconcileLinks frn actual).entries.frn e ≠ frn) := by
  have inv := reachable.invariant
  rw [reconcileLinks]
  constructor
  · intro some_
    rw [if_neg (by simpa using some_)]
    exact inv.reconciled frn _ live some_
  · rintro rfl
    obtain ⟨swept, -⟩ := inv.swept_deleteFrn frn
    refine ⟨swept, fun e still notLost own => ?_⟩
    obtain ⟨chains, tenants⟩ := inv.tenants
    obtain ⟨alive, out⟩ := (swept.live e).mp still
    exact out ((tenants.mem_links inv.integrity).mpr ⟨alive, notLost, (swept.same e still).frn.symm.trans own⟩)

/-- Once `x` is renamed to `z`, the walk finds `z` and `y`: `y` keeps its slot. -/
theorem linkedIndex_reconciled :
    letI := ascii
    let actual : List LinkTarget := [⟨2, ⟨[0x7A], false⟩⟩, ⟨0, ⟨[0x79], false⟩⟩]
    linkedIndex.links twoNames = [3, 4] ∧ (linkedIndex.reconcileLinks twoNames actual).links twoNames = [5, 4] ∧
      Reconciled linkedIndex twoNames actual (linkedIndex.reconcileLinks twoNames actual) := by
  let _ := ascii
  refine ⟨by decide, by decide, ?_⟩
  exact (reconcile_links_exact reachable_linkedIndex twoNames (by decide)).1 (by decide)

end Goz.VolumeIndex
