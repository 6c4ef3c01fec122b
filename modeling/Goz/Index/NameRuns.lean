import Goz.Index.NameOrder
import Goz.Index.Root

namespace Goz

open Function

namespace NameStore

section Tidy

def Blanked (s : NameStore) : Prop := ∀ id, id < s.ids → ¬ s.Live id → ∀ byte ∈ s.foldedBytesOf id, byte = 0

structure Tidy [Externals] (s : NameStore) : Prop where
  wf : s.Wf
  ordered : s.Ordered
  blanked : s.Blanked

variable [Externals] {s s' : NameStore}

theorem tidy_new : Tidy new where
  wf := wf_new
  ordered := ordered_new
  blanked := fun _ below => absurd below (Nat.not_lt_zero _)

theorem Tidy.setChainHead (tidy : s.Tidy) (id : NameId) (e : Option EntryIdx) : (s.setChainHead id e).Tidy where
  wf := VolumeIndex.setChainHead_wf tidy.wf id e
  ordered := tidy.ordered.thin rfl rfl rfl rfl (fun _ alive => alive) fun _ _ => rfl
  blanked := tidy.blanked

theorem Blanked.internNew (blanked : s.Blanked) (wf : s.Wf) (name : Bytes) : (s.internNew name).Blanked := by
  obtain ⟨-, -, -, same⟩ := wf.laid.push (fold name = name) name (fold name) (s.internNew name).pairs (by simp_all)
    (fun id below => update_of_ne (Nat.ne_of_lt below) _ s.pairs) (update_self s.ids _ s.pairs)
  intro id below dead
  rcases Nat.lt_succ_iff_lt_or_eq.mp below with below | rfl
  · have kept : (s.internNew name).foldedBytesOf id = s.foldedBytesOf id := (same id below).2
    have still : ¬ s.Live id := by
      intro alive
      apply dead
      rw [Live, NameStore.internNew]
      simpa [Live, update_of_ne (Nat.ne_of_lt below)] using alive
    rw [kept]
    exact blanked id below still
  · exact absurd (by simp [Live, NameStore.internNew]) dead

theorem Tidy.intern (tidy : s.Tidy) (name : Bytes) : (s.intern name).1.Tidy where
  wf := (tidy.wf.intern name).wf
  ordered := tidy.ordered.intern tidy.wf name
  blanked := by
    unfold NameStore.intern
    split
    case h_1 known _ =>
      intro id below dead
      refine tidy.blanked id below fun alive => dead ?_
      by_cases same : id = known
      · simp [Live, same]
      · simpa [Live, update_of_ne same] using alive
    case h_2 => exact tidy.blanked.internNew tidy.wf name

theorem Tidy.release (tidy : s.Tidy) {id : NameId} (live : s.Live id) : (s.release id).Tidy where
  wf := (tidy.wf.release id live).wf
  ordered := tidy.ordered.release tidy.wf live
  blanked := by
    unfold NameStore.release
    split
    case isTrue more =>
      intro other below dead
      refine tidy.blanked other below fun alive => dead ?_
      by_cases same : other = id
      · simpa [Live, same] using more
      · simpa [Live, update_of_ne same] using alive
    case isFalse =>
      obtain ⟨-, same⟩ := tidy.wf.laid.blank (tidy.wf.live_lt id live)
      intro other below dead
      by_cases own : other = id
      · subst own
        exact Arena.mem_slice_blank
      · have kept : (s.bury id).foldedBytesOf other = s.foldedBytesOf other := (same other below own).2
        rw [kept]
        refine tidy.blanked other below fun alive => dead ?_
        simpa [Live, bury, update_of_ne own] using alive

theorem Tidy.resorted (tidy : s.Tidy) (resorted : Resorted s s') : s'.Tidy := by
  have same := resorted.reordered
  refine ⟨tidy.wf.reordered same, ?_, ?_⟩
  · cases resorted with
    | merge => exact tidy.ordered.mergeUnranked tidy.wf
    | build => exact ordered_buildOrder tidy.wf
  · intro id below dead
    rw [(same.sameBytes id).2]
    rw [same.ids] at below
    rw [Live, same.refcount] at dead
    exact tidy.blanked id below dead

theorem Tidy.installCompacted (tidy : s.Tidy) : (s.installCompacted s.planCompact).Tidy := by
  have copied := tidy.wf.copied
  have renumbered := tidy.wf.installCompacted
  refine ⟨renumbered.wf, tidy.ordered.installCompacted tidy.wf, fun new below dead => ?_⟩
  -- only live names are copied
  have inside : new < (s.keptBelow s.ids).length := copied.length ▸ below
  have remap := (copied.remap _ new).mpr (List.getElem?_eq_getElem inside)
  have alive := (renumbered.live _).mp ⟨new, remap⟩
  rw [Live, ← (renumbered.moved _ new remap).2.2.1] at alive
  exact absurd alive dead

end Tidy

section Runs

variable [Externals]

/-- The name stores that operations lead to. Only a name that is held is released, and a plan of a compaction is installed before
    anything changes. -/
inductive Reached : NameStore → Prop
  | new : Reached new
  | intern {s : NameStore} (before : Reached s) (name : Bytes) : Reached (s.intern name).1
  | release {s : NameStore} (before : Reached s) {id : NameId} (live : s.Live id) : Reached (s.release id)
  | setChainHead {s : NameStore} (before : Reached s) (id : NameId) (e : Option EntryIdx) : Reached (s.setChainHead id e)
  | buildOrder {s : NameStore} (before : Reached s) : Reached s.buildOrder
  | mergeUnranked {s : NameStore} (before : Reached s) : Reached s.mergeUnranked
  | compact {s : NameStore} (before : Reached s) : Reached (s.installCompacted s.planCompact)

variable {s : NameStore}

theorem Reached.tidy (reached : Reached s) : s.Tidy := by
  induction reached with
  | new => exact tidy_new
  | intern _ name ih => exact ih.intern name
  | release _ live ih => exact ih.release live
  | setChainHead _ id e ih => exact ih.setChainHead id e
  | buildOrder _ ih => exact ih.resorted .build
  | mergeUnranked _ ih => exact ih.resorted .merge
  | compact _ ih => exact ih.installCompacted

omit [Externals] in
theorem Ordered.lt_of_rankKey_lt (ordered : s.Ordered) {a b : NameId} (liveA : s.Live a) (liveB : s.Live b)
    (lt : s.rankKey a < s.rankKey b) : s.foldedBytesOf a < s.foldedBytesOf b := by
  rcases Std.lt_trichotomy (s.foldedBytesOf a) (s.foldedBytesOf b) with below | same | above
  · exact below
  · rw [ordered.rankKey_eq liveA liveB same] at lt
    exact absurd lt (Nat.lt_irrefl _)
  · exact absurd (ordered.rankKey_le liveB liveA above) (Nat.not_le_of_lt lt)

/-- The keys of names order them as their folded bytes do, in every store that operations lead to. -/
theorem rank_keys_order_names (reached : Reached s) {a b : NameId} (liveA : s.Live a) (liveB : s.Live b) :
    (s.rankKey a < s.rankKey b → s.foldedBytesOf a < s.foldedBytesOf b) ∧
    (s.foldedBytesOf a = s.foldedBytesOf b → s.rankKey a = s.rankKey b) ∧
    (compare (s.rankKey a) (s.rankKey b)).then (compare (s.foldedBytesOf a) (s.foldedBytesOf b)) =
      compare (s.foldedBytesOf a) (s.foldedBytesOf b) := by
  have ordered := reached.tidy.ordered
  refine ⟨ordered.lt_of_rankKey_lt liveA liveB, ordered.rankKey_eq liveA liveB, ?_⟩
  rcases Nat.lt_trichotomy (s.rankKey a) (s.rankKey b) with lt | same | gt
  · rw [Nat.compare_eq_lt.mpr lt, compare_bytes_eq_lt.mpr (ordered.lt_of_rankKey_lt liveA liveB lt)]
    rfl
  · rw [Nat.compare_eq_eq.mpr same]
    rfl
  · rw [Nat.compare_eq_gt.mpr gt, compare_bytes_eq_gt.mpr (ordered.lt_of_rankKey_lt liveB liveA gt)]
    rfl

omit [Externals] in
/-- A ranked name and one that waits. -/
theorem waiting_name_keyed :
    letI := Externals.ascii
    let s := ((new.intern [0x62]).1.buildOrder.intern [0x63]).1
    s.Live 0 ∧ s.Live 1 ∧ s.rankKey 0 = 1 ∧ s.rankKey 1 = 2 ∧ s.foldedBytesOf 0 < s.foldedBytesOf 1 := by
  let _ := Externals.ascii
  intro s
  have reached : Reached s := ((Reached.new.intern [0x62]).buildOrder).intern [0x63]
  have liveA : s.Live 0 := by decide +kernel
  have liveB : s.Live 1 := by decide +kernel
  have first : s.rankKey 0 = 1 := by decide +kernel
  have second : s.rankKey 1 = 2 := by decide +kernel
  have less : s.rankKey 0 < s.rankKey 1 := by rw [first, second]; decide
  exact ⟨liveA, liveB, first, second, (rank_keys_order_names reached liveA liveB).1 less⟩

end Runs

end NameStore

namespace VolumeIndex

variable [Externals] {ix ix' : VolumeIndex} {touched : Frn → Prop}

theorem orphanFrom_names (fuel : Nat) (head : Option EntryIdx) (ix : VolumeIndex) :
    (orphanFrom fuel head ix).names = ix.names ∧ (orphanFrom fuel head ix).entries.nameId = ix.entries.nameId := by
  induction fuel generalizing head ix with
  | zero => cases head <;> exact ⟨rfl, rfl⟩
  | succ fuel ih =>
    cases head with
    | none => exact ⟨rfl, rfl⟩
    | some cur => exact ih (ix.entries.nextChild cur) (ix.orphan cur)

theorem removeEntry_names (ix : VolumeIndex) (idx : EntryIdx) :
    (ix.removeEntry idx).names = (ix.unlinkSameName idx).names.release (ix.entries.nameId idx) := by
  obtain ⟨names, nameId⟩ := orphanFrom_names (ix.unlinkEntry idx).entries.capacity
    ((ix.unlinkEntry idx).entries.firstChild idx) (ix.unlinkEntry idx)
  exact congr (congrArg NameStore.release names) (congrFun nameId idx)

theorem Prim.tidy (step : Prim touched ix ix') (ok : ix.Integrity) (tidy : ix.names.Tidy) : ix'.names.Tidy := by
  cases step with
  | remove live notLost _ =>
    rw [removeEntry_names]
    exact (tidy.setChainHead _ _).release (ok.name_live live)
  | add frn name flags size mtime parentLive alive _ => exact (tidy.intern name).setChainHead _ _
  | rewrite name nameLossy isDir live notLost parentLive _ =>
    exact (((tidy.setChainHead _ _).release (ok.name_live live)).intern name).setChainHead _ _
  | relabel byFrn nextLink size mtime stats dirty generation _ => exact tidy
  | prune => exact tidy
  | reorder resorted => exact tidy.resorted resorted
  | compact => exact tidy.installCompacted

theorem Reachable.tidy {rootFrn : Frn} (reachable : Reachable rootFrn ix) : ix.names.Tidy := by
  induction reachable with
  | new empty =>
    exact (((NameStore.tidy_new.intern []).intern lostFoundName).setChainHead _ _).setChainHead _ _
  | step op before _ ih =>
    have inv := before.invariant
    exact Steps.preserves Prim.tidy (inv.run op).steps inv.integrity ih

section Synthetic

structure Labelled (ix : VolumeIndex) : Prop where
  root : ix.rawName ix.root = []
  lost : ix.rawName ix.lostFound = lostFoundName
  held : ∀ e, ix.Live e → (ix.entries.flags e).placeholder = true → ix.rawName e = placeholderName
  only : ∀ e, ix.Live e → (ix.entries.flags e).lostFound = true → e = ix.lostFound

variable {rootFrn : Frn}

theorem labelled_new (rootFrn : Frn) (frnMap : FrnMap) : (new rootFrn frnMap).Labelled := by
  have live := live_new rootFrn frnMap
  have first := NameStore.wf_new.intern []
  have second := first.wf.intern lostFoundName
  constructor
  · exact (second.same _ first.live).1.trans first.bytes
  · exact second.bytes
  · intro e there marked
    rcases (live e).mp there with rfl | rfl <;> cases marked
  · intro e there marked
    rcases (live e).mp there with rfl | rfl
    · cases marked
    · rfl

/-- The marks of the entries that stand for no file: a placeholder lies in lost+found. -/
structure Marked (ix : VolumeIndex) : Prop where
  held : ∀ e, ix.Live e → (ix.entries.flags e).placeholder = true → ix.entries.parent e = some ix.lostFound
  only : ∀ e, ix.Live e → (ix.entries.flags e).lostFound = true → e = ix.lostFound

theorem Prim.marked (step : Prim touched ix ix') (ok : ix.Integrity) (marked : ix.Marked) : ix'.Marked := by
  have effect := step.effect ok
  constructor
  · intro e live mark
    rw [effect.lost]
    rcases effect.after e live with carried | written
    · rw [carried.flags] at mark
      rcases carried.parent with same | moved
      · exact same.trans (marked.held e carried.live mark)
      · exact moved.1
    · exact (written.placeholder mark).2
  · intro e live mark
    rw [effect.lost]
    rcases effect.after e live with carried | written
    · rw [carried.flags] at mark
      exact marked.only e carried.live mark
    · exact marked.only e (written.lostFound mark).1 (written.lostFound mark).2

theorem Reachable.marked (reachable : Reachable rootFrn ix) : ix.Marked := by
  induction reachable with
  | new empty =>
    have live := live_new rootFrn
    constructor
    · intro e there mark
      rcases (live _ e).mp there with rfl | rfl <;> cases mark
    · exact (labelled_new rootFrn _).only
  | step op before _ ih =>
    have inv := before.invariant
    exact Steps.preserves Prim.marked (inv.run op).steps inv.integrity ih

def RootUnnamed (ix : VolumeIndex) : Prop := ix.Live ix.root → ix.entries.parent ix.root = none → ix.rawName ix.root = []

theorem Prim.rootUnnamed (step : Prim touched ix ix') (ok : ix.Integrity) (unnamed : ix.RootUnnamed) :
    ix'.RootUnnamed := by
  intro live top
  have effect := step.effect ok
  rw [effect.root] at live top ⊢
  rcases effect.after _ live with carried | written
  · rw [carried.rawName]
    apply unnamed carried.live
    rcases carried.parent with same | moved
    · exact same.symm.trans top
    · exact absurd (moved.1.symm.trans top) nofun
  · exact absurd top written.parent

theorem Reachable.rootUnnamed (reachable : Reachable rootFrn ix) : ix.RootUnnamed := by
  induction reachable with
  | new empty => exact fun _ _ => (labelled_new rootFrn _).root
  | step op before _ ih =>
    have inv := before.invariant
    exact Steps.preserves Prim.rootUnnamed (inv.run op).steps inv.integrity ih

theorem Prim.lostNamed (step : Prim touched ix ix') (ok : ix.Integrity)
    (named : ix.rawName ix.lostFound = lostFoundName) : ix'.rawName ix'.lostFound = lostFoundName := by
  have effect := step.effect ok
  rw [effect.lost, (effect.kept _ ok.lost_live (.inl rfl)).2.rawName, named]

theorem Reachable.lostNamed (reachable : Reachable rootFrn ix) : ix.rawName ix.lostFound = lostFoundName := by
  induction reachable with
  | new empty => exact (labelled_new rootFrn _).lost
  | step op before _ ih =>
    have inv := before.invariant
    exact Steps.preserves Prim.lostNamed (inv.run op).steps inv.integrity ih

def PlaceholdersNamed (ix : VolumeIndex) : Prop :=
  ∀ e, ix.Live e → (ix.entries.flags e).placeholder = true → ix.rawName e = placeholderName

theorem Prim.placeholdersNamed (step : Prim touched ix ix') (ok : ix.Integrity) (named : ix.PlaceholdersNamed) :
    ix'.PlaceholdersNamed := by
  intro e live mark
  rcases (step.effect ok).after e live with carried | written
  · rw [carried.flags] at mark
    exact carried.rawName.trans (named e carried.live mark)
  · exact (written.placeholder mark).1

theorem Reachable.placeholdersNamed (reachable : Reachable rootFrn ix) : ix.PlaceholdersNamed := by
  induction reachable with
  | new empty => exact (labelled_new rootFrn _).held
  | step op before _ ih =>
    have inv := before.invariant
    exact Steps.preserves Prim.placeholdersNamed (inv.run op).steps inv.integrity ih

theorem Undisturbed.labelled (run : Undisturbed rootFrn ix) : ix.Labelled :=
  ⟨run.reachable.rootUnnamed run.rooted.live run.rooted.top, run.reachable.lostNamed, run.reachable.placeholdersNamed,
    run.reachable.marked.only⟩

/-- An entry that stands for no file is always told by its mark: placeholders lie in lost+found under their own name. -/
theorem synthetic_entries_apart (reachable : Reachable rootFrn ix) :
    ix.rawName ix.lostFound = lostFoundName ∧
    (∀ e, ix.Live e → (ix.entries.flags e).lostFound = true → e = ix.lostFound) ∧
    ∀ e, ix.Live e → (ix.entries.flags e).placeholder = true →
      ix.rawName e = placeholderName ∧ ix.entries.parent e = some ix.lostFound :=
  ⟨reachable.lostNamed, reachable.marked.only, fun e live mark =>
    ⟨reachable.placeholdersNamed e live mark, reachable.marked.held e live mark⟩⟩

end Synthetic

omit [Externals] in
theorem stray_parent_held : letI := Externals.ascii
    let ix := (new ntfsRootFrn (.sparse [])).insertEnum { folderRecord with parentFrn := ⟨9⟩ }
    ix.rawName 2 = placeholderName ∧ ix.entries.parent 2 = some ix.lostFound := by
  let _ := Externals.ascii
  exact (synthetic_entries_apart (.step (.insertEnum _) (.new fun _ => rfl) trivial)).2.2 2 (by decide) (by decide)

end VolumeIndex

end Goz
