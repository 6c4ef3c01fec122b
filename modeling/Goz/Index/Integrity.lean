import Goz.Index.NameIntegrity
import Goz.Index.Volume

namespace Goz.VolumeIndex

open Function Intrusive List

variable {ix : VolumeIndex} {held : EntryIdx → Prop} {idx : EntryIdx} [Externals] {ix' : VolumeIndex}

/-- The scope index holds the held entries that are real folders, each under its own key. -/
def ScopeExact (ix : VolumeIndex) (held : EntryIdx → Prop) : Prop :=
  Multimap.Exact ix.dirChildren ix.scopeKey (fun e => held e ∧ ix.indexed e = true)

/-- What every operation keeps true of the tree, the names and the scope index. -/
structure Integrity (ix : VolumeIndex) : Prop where
  slots : ix.entries.Slots
  names : ix.names.Wf
  tree : ∃ kids, Buckets ix.entries.nextChild ix.entries.prevChild ix.entries.firstChild ix.entries.parent ix.Live kids
  parent_live : ∀ e p, ix.Live e → ix.entries.parent e = some p → ix.Live p
  bearers : ∃ bearers, Buckets ix.entries.nextSame ix.entries.prevSame ix.names.head (fun e => some (ix.entries.nameId e))
    ix.Live bearers ∧ ∀ id, ix.names.refcount id = (bearers id).length
  scope : ix.ScopeExact ix.Live
  lost_live : ix.Live ix.lostFound
  lost_top : ix.entries.parent ix.lostFound = none
  apart : ix.root ≠ ix.lostFound
  top : ∀ e, ix.Live e → ix.entries.parent e = none → e = ix.root ∨ e = ix.lostFound

section Scope

omit [Externals] in
theorem indexed_dir (inScope : ix.indexed idx = true) : (ix.entries.flags idx).dir = true := by
  simp only [indexed, Bool.and_eq_true] at inScope
  exact inScope.1.1.1

variable (scope : ix.ScopeExact held)
include scope

theorem ScopeExact.remove (idx : EntryIdx) :
    (ix.dirIndexRemove idx).ScopeExact (fun e => held e ∧ e ≠ idx) := by
  unfold ScopeExact dirIndexRemove
  by_cases dir : (ix.entries.flags idx).dir = true
  · rw [if_pos dir]
    exact (Multimap.Exact.erase scope idx).congr (fun e => and_right_comm) fun _ _ => rfl
  · rw [if_neg dir]
    refine scope.congr (fun e => ?_) fun _ _ => rfl
    refine ⟨fun ⟨⟨inside, _⟩, inScope⟩ => ⟨inside, inScope⟩, fun ⟨inside, inScope⟩ => ⟨⟨inside, ?_⟩, inScope⟩⟩
    rintro rfl
    exact dir (indexed_dir inScope)

theorem ScopeExact.insert (out : ¬ held idx) :
    (ix.dirIndexInsert idx).ScopeExact (fun e => held e ∨ e = idx) := by
  unfold ScopeExact dirIndexInsert
  by_cases inScope : ix.indexed idx = true
  · rw [if_pos inScope]
    refine (Multimap.Exact.insert scope (x := idx) fun inside => out inside.1).congr (fun e => ?_) fun _ _ => rfl
    show (held e ∨ e = idx) ∧ ix.indexed e = true ↔ _
    refine ⟨?_, ?_⟩
    · rintro ⟨inside | rfl, inScope⟩
      · exact .inl ⟨inside, inScope⟩
      · exact .inr rfl
    · rintro (⟨inside, inScope⟩ | rfl)
      · exact ⟨.inl inside, inScope⟩
      · exact ⟨.inr rfl, inScope⟩
  · rw [if_neg inScope]
    refine scope.congr (fun e => ?_) fun _ _ => rfl
    show (held e ∨ e = idx) ∧ ix.indexed e = true ↔ _
    refine ⟨?_, fun ⟨inside, known⟩ => ⟨.inl inside, known⟩⟩
    rintro ⟨inside | rfl, known⟩
    · exact ⟨inside, known⟩
    · exact absurd known inScope

theorem ScopeExact.congr {held' : EntryIdx → Prop} (dirs : ix'.dirChildren = ix.dirChildren) (same : ∀ e, held' e ↔ held e)
    (inScope : ∀ e, held e → ix'.indexed e = ix.indexed e) (keys : ∀ e, held e → ix'.scopeKey e = ix.scopeKey e) :
    ix'.ScopeExact held' := by
  unfold ScopeExact
  rw [dirs]
  refine Multimap.Exact.congr scope (fun e => ?_) fun e inside => keys e inside.1
  rw [same e]
  exact and_congr_right fun inside => by rw [inScope e inside]

end Scope

section Orphans

variable {nodes : List EntryIdx}

def withTree (ix : VolumeIndex) (parent next prev first : EntryIdx → Option EntryIdx)
    (dirs : ScopeKey → Option (List EntryIdx)) (dirty : Nat) : VolumeIndex :=
  { ix with
    entries := { ix.entries with parent := parent, nextChild := next, prevChild := prev, firstChild := first }
    dirChildren := dirs
    dirty := dirty }

theorem orphan_eq (ix : VolumeIndex) (cur : EntryIdx) :
    ix.orphan cur = ix.withTree (update ix.entries.parent cur (some ix.lostFound))
      (pushNext ix.entries.nextChild (ix.entries.firstChild ix.lostFound) cur)
      (pushPrev ix.entries.prevChild (ix.entries.firstChild ix.lostFound) cur)
      (update ix.entries.firstChild ix.lostFound (some cur)) (ix.orphan cur).dirChildren (ix.dirty + 1) := by
  simp [orphan, withTree, linkChild, setParent, dirIndexInsert, dirIndexRemove]

theorem orphanFrom_eq {head : Option EntryIdx} {fuel : Nat}
    (linked : Linked ix.entries.nextChild head nodes) (enough : nodes.length ≤ fuel) :
    orphanFrom fuel head ix = nodes.foldl orphan ix := by
  induction nodes generalizing head fuel ix with
  | nil =>
    rw [show head = none from linked]
    cases fuel <;> rfl
  | cons cur rest ih =>
    cases fuel with
    | zero => simp at enough
    | succ fuel =>
      have distinct := nodup_cons.mp linked.nodup
      rw [linked.1, orphanFrom, foldl_cons]
      refine ih (linked.2.congr fun node mem => ?_) (by simpa using enough)
      rw [orphan_eq]
      exact pushNext_of_ne fun same => distinct.1 (same ▸ mem)

/-- What moving `nodes` under lost+found leaves: a tree over `held`, with everything else as it was. -/
structure Orphaned (ix : VolumeIndex) (dir : EntryIdx) (nodes : List EntryIdx) (held : EntryIdx → Prop)
    (ix' : VolumeIndex) : Prop where
  frame : ∃ parent next prev first dirs dirty, ix' = ix.withTree parent next prev first dirs dirty
  tree : ∃ kids, Buckets ix'.entries.nextChild ix'.entries.prevChild (update ix'.entries.firstChild dir none)
    ix'.entries.parent held kids
  scope : ix'.ScopeExact held
  parent : ∀ e, ix'.entries.parent e = if e ∈ nodes then some ix.lostFound else ix.entries.parent e

theorem orphan_step {dir cur : EntryIdx} {rest : List EntryIdx}
    (away : dir ≠ ix.lostFound) (inside : held cur) (apart : cur ∉ rest)
    (tree : ∃ kids, Buckets ix.entries.nextChild ix.entries.prevChild (update ix.entries.firstChild dir none)
      ix.entries.parent (fun e => held e ∧ e ∉ cur :: rest) kids)
    (scope : ix.ScopeExact held) :
    (∃ kids, Buckets (ix.orphan cur).entries.nextChild (ix.orphan cur).entries.prevChild
      (update (ix.orphan cur).entries.firstChild dir none) (ix.orphan cur).entries.parent
      (fun e => held e ∧ e ∉ rest) kids) ∧ (ix.orphan cur).ScopeExact held := by
  refine ⟨?_, ?_⟩
  · obtain ⟨kids, tree⟩ := tree
    have rekeyed : Buckets ix.entries.nextChild ix.entries.prevChild (update ix.entries.firstChild dir none)
        (update ix.entries.parent cur (some ix.lostFound)) (fun e => held e ∧ e ∉ cur :: rest) kids :=
      tree.congr (fun _ => Iff.rfl) (fun _ _ => rfl) (fun _ _ => rfl)
      (fun e other => update_of_ne (fun same => other.2 (by simp [same])) _ _) (fun _ => rfl)
    have pushed := rekeyed.push cur ix.lostFound (by simp) (by simp)
    rw [update_of_ne (Ne.symm away)] at pushed
    rw [orphan_eq]
    refine ⟨_, pushed.congr (fun e => ?_) (fun _ _ => rfl) (fun _ _ => rfl) (fun _ _ => rfl) fun k => ?_⟩
    · rw [mem_cons, not_or]
      by_cases same : e = cur
      · simp [same, inside, apart]
      · simp [same]
    · show update (update ix.entries.firstChild ix.lostFound (some cur)) dir none k = _
      rw [update_comm away.symm]
  · have removed := scope.remove cur
    have moved : ((ix.dirIndexRemove cur).setParent cur ix.lostFound).linkChild cur |>.ScopeExact
        (fun e => held e ∧ e ≠ cur) := by
      refine removed.congr rfl (fun _ => Iff.rfl) (fun _ _ => rfl) fun e other => ?_
      refine Prod.ext ?_ rfl
      exact update_of_ne other.2 _ _
    refine (moved.insert (fun inside => inside.2 rfl)).congr rfl (fun e => ?_) (fun _ _ => rfl) fun _ _ => rfl
    by_cases same : e = cur
    · simp [same, inside]
    · simp [same]

theorem orphan_all (ix : VolumeIndex) (dir : EntryIdx)
    (away : dir ≠ ix.lostFound) (distinct : nodes.Nodup) (inside : ∀ e ∈ nodes, held e)
    (tree : ∃ kids, Buckets ix.entries.nextChild ix.entries.prevChild (update ix.entries.firstChild dir none)
      ix.entries.parent (fun e => held e ∧ e ∉ nodes) kids)
    (scope : ix.ScopeExact held) : Orphaned ix dir nodes held (nodes.foldl orphan ix) := by
  induction nodes generalizing ix with
  | nil =>
    refine ⟨⟨_, _, _, _, _, _, rfl⟩, ?_, scope, fun e => by simp⟩
    obtain ⟨kids, tree⟩ := tree
    exact ⟨kids, tree.congr_held (by simp)⟩
  | cons cur rest ih =>
    obtain ⟨apart, distinct⟩ := nodup_cons.mp distinct
    obtain ⟨tree, scope⟩ := orphan_step away (inside cur (by simp)) apart tree scope
    have lost : (ix.orphan cur).lostFound = ix.lostFound := rfl
    obtain ⟨⟨parent, next, prev, first, dirs, dirty, eq⟩, tree', scope', moved⟩ :=
      ih _ (lost ▸ away) distinct (fun e mem => inside e (by simp [mem])) tree scope
    rw [foldl_cons]
    refine ⟨⟨parent, next, prev, first, dirs, dirty, ?_⟩, tree', scope', fun e => ?_⟩
    · rw [eq, orphan_eq]
      rfl
    · have here : (ix.orphan cur).entries.parent = update ix.entries.parent cur (some ix.lostFound) := by
        rw [orphan_eq]
        rfl
      rw [moved e, here, lost]
      by_cases same : e = cur
      · simp [same]
      · simp [same]

end Orphans

/-- An entry keeps everything but its parent and its places in the chains. -/
structure SameEntry (ix ix' : VolumeIndex) (e : EntryIdx) : Prop where
  frn : ix'.entries.frn e = ix.entries.frn e
  flags : ix'.entries.flags e = ix.entries.flags e
  size : ix'.entries.size e = ix.entries.size e
  mtime : ix'.entries.mtime e = ix.entries.mtime e
  nextLink : ix'.entries.nextLink e = ix.entries.nextLink e
  rawName : ix'.rawName e = ix.rawName e
  foldedName : ix'.foldedName e = ix.foldedName e

structure SameFrame (ix ix' : VolumeIndex) : Prop where
  root : ix'.root = ix.root
  lostFound : ix'.lostFound = ix.lostFound
  generation : ix'.generation = ix.generation

/-- What removing the entries `gone` does: their children are under lost+found and every other
    entry is as it was. -/
structure Removed (ix : VolumeIndex) (gone : List EntryIdx) (ix' : VolumeIndex) : Prop where
  integrity : ix'.Integrity
  frame : SameFrame ix ix'
  byFrn : ix'.byFrn = ix.byFrn
  suspects : ix'.cycleSuspects = ix.cycleSuspects
  live : ∀ e, ix'.Live e ↔ ix.Live e ∧ e ∉ gone
  same : ∀ e, ix'.Live e → SameEntry ix ix' e
  parents : ∀ e, ix'.Live e → ix'.entries.parent e =
    if ∃ p ∈ gone, ix.entries.parent e = some p then some ix.lostFound else ix.entries.parent e

def unlinkEntry (ix : VolumeIndex) (idx : EntryIdx) : VolumeIndex :=
  ((ix.dirIndexRemove idx).unlinkSameName idx).unlinkChild idx

variable (ok : ix.Integrity)
include ok

theorem Integrity.tree_unlink (live : ix.Live idx) :
    ∃ kids, Buckets (ix.unlinkChild idx).entries.nextChild (ix.unlinkChild idx).entries.prevChild
      (ix.unlinkChild idx).entries.firstChild ix.entries.parent (fun e => ix.Live e ∧ e ≠ idx) kids := by
  obtain ⟨kids, tree⟩ := ok.tree
  cases parent : ix.entries.parent idx with
  | none =>
    refine ⟨kids, ?_⟩
    simpa [unlinkChild, parent] using tree.drop_keyless parent
  | some p =>
    refine ⟨update kids p ((kids p).erase idx), ?_⟩
    simpa [unlinkChild, parent] using tree.unlink live parent

theorem Integrity.orphanChildren (live : ix.Live idx) (notLost : idx ≠ ix.lostFound) :
    ∃ parent next prev first dirs dirty,
      (ix.unlinkEntry idx).orphanChildren idx = (ix.unlinkEntry idx).withTree parent next prev first dirs dirty ∧
      (∃ kids, Buckets next prev first parent (fun e => ix.Live e ∧ e ≠ idx) kids) ∧
      ((ix.unlinkEntry idx).withTree parent next prev first dirs dirty).ScopeExact (fun e => ix.Live e ∧ e ≠ idx) ∧
      first idx = none ∧
      ∀ e, ix.Live e → e ≠ idx →
        parent e = if ix.entries.parent e = some idx then some ix.lostFound else ix.entries.parent e := by
  set u := ix.unlinkEntry idx with u_def
  obtain ⟨kids, tree⟩ := ok.tree_unlink live
  have inKids : ∀ e, e ∈ kids idx ↔ (ix.Live e ∧ e ≠ idx) ∧ ix.entries.parent e = some idx := tree.mem idx
  have chain : Linked u.entries.nextChild (u.entries.firstChild idx) (kids idx) := (tree.chain idx).linked
  have enough : (kids idx).length ≤ u.entries.capacity :=
    chain.length_le fun e mem => ok.slots.live_lt e ((inKids e).mp mem).1.1
  have scope : u.ScopeExact (fun e => ix.Live e ∧ e ≠ idx) := ok.scope.remove idx
  have detached : ∃ kids', Buckets u.entries.nextChild u.entries.prevChild (update u.entries.firstChild idx none)
      u.entries.parent (fun e => (ix.Live e ∧ e ≠ idx) ∧ e ∉ kids idx) kids' := by
    refine ⟨_, (tree.detach idx).congr_held (fun e => ?_)⟩
    refine and_congr_right fun held => ?_
    rw [inKids e]
    simp [held]
  obtain ⟨⟨parent, next, prev, first, dirs, dirty, eq⟩, tree', scope', moved⟩ :=
    orphan_all u idx notLost chain.nodup (fun e mem => ((inKids e).mp mem).1) detached scope
  have walked : orphanFrom u.entries.capacity (u.entries.firstChild idx) u = u.withTree parent next prev first dirs dirty :=
    (orphanFrom_eq chain enough).trans eq
  rw [eq] at tree' scope' moved
  refine ⟨parent, next, prev, update first idx none, dirs, dirty, ?_, tree', scope', update_self .., ?_⟩
  · unfold VolumeIndex.orphanChildren
    rw [walked]
    rfl
  · intro e alive ne
    have value : parent e = if e ∈ kids idx then some ix.lostFound else ix.entries.parent e := moved e
    simpa [inKids, alive, ne] using value

theorem Integrity.bearers_unlink (live : ix.Live idx) :
    ∃ bearers, Buckets (ix.unlinkSameName idx).entries.nextSame (ix.unlinkSameName idx).entries.prevSame
      (ix.unlinkSameName idx).names.head (fun e => some (ix.entries.nameId e)) (fun e => ix.Live e ∧ e ≠ idx) bearers ∧
      ∀ id, update ix.names.refcount (ix.entries.nameId idx) (ix.names.refcount (ix.entries.nameId idx) - 1) id =
        (bearers id).length := by
  obtain ⟨bearers, chains, counts⟩ := ok.bearers
  refine ⟨_, chains.unlink live rfl, fun id => ?_⟩
  have mem : idx ∈ bearers (ix.entries.nameId idx) := (chains.mem _ _).mpr ⟨live, rfl⟩
  by_cases here : id = ix.entries.nameId idx
  · subst here
    simp only [update_self, counts, length_erase_of_mem mem]
  · simp only [update_of_ne here, counts]

theorem Integrity.name_live {e : EntryIdx} (live : ix.Live e) : ix.names.Live (ix.entries.nameId e) := by
  obtain ⟨bearers, chains, counts⟩ := ok.bearers
  have mem : e ∈ bearers (ix.entries.nameId e) := (chains.mem _ _).mpr ⟨live, rfl⟩
  rw [NameStore.Live, counts]
  exact length_pos_of_mem mem

omit ok

theorem setChainHead_wf {s : NameStore} (wf : s.Wf) (id : NameId) (e : Option EntryIdx) : (s.setChainHead id e).Wf :=
  { wf with }

/-- An index that keeps its root and lost+found is sound once its columns are, if each entry has a live parent or is at the top as before. -/
theorem Integrity.rebuilt (ok : ix.Integrity) (frame : SameFrame ix ix') (slots : ix'.entries.Slots) (names : ix'.names.Wf)
    (tree : ∃ kids, Buckets ix'.entries.nextChild ix'.entries.prevChild ix'.entries.firstChild ix'.entries.parent ix'.Live kids)
    (bearers : ∃ bearers, Buckets ix'.entries.nextSame ix'.entries.prevSame ix'.names.head (fun e => some (ix'.entries.nameId e))
      ix'.Live bearers ∧ ∀ id, ix'.names.refcount id = (bearers id).length) (scope : ix'.ScopeExact ix'.Live)
    (lost : ix'.Live ix.lostFound ∧ ix'.entries.parent ix.lostFound = none)
    (up : ∀ e, ix'.Live e → (∃ p, ix'.entries.parent e = some p ∧ ix'.Live p) ∨
      ix.Live e ∧ ix'.entries.parent e = none ∧ ix.entries.parent e = none) : ix'.Integrity where
  slots := slots
  names := names
  tree := tree
  bearers := bearers
  scope := scope
  lost_live := frame.lostFound ▸ lost.1
  lost_top := frame.lostFound ▸ lost.2
  apart := by
    rw [frame.root, frame.lostFound]
    exact ok.apart
  parent_live e p there at_ := by
    rcases up e there with ⟨q, under, live⟩ | ⟨-, none_, -⟩
    · exact Option.some.inj (under.symm.trans at_) ▸ live
    · exact absurd (none_.symm.trans at_) nofun
  top e there at_ := by
    rw [frame.root, frame.lostFound]
    rcases up e there with ⟨q, under, -⟩ | ⟨alive, -, above⟩
    · exact absurd (under.symm.trans at_) nofun
    · exact ok.top e alive above

theorem Integrity.removeEntry (ok : ix.Integrity) (live : ix.Live idx) (notLost : idx ≠ ix.lostFound) :
    Removed ix [idx] (ix.removeEntry idx) := by
  obtain ⟨parent, next, prev, first, dirs, dirty, eq, tree, scope, childless, moved⟩ := ok.orphanChildren live notLost
  obtain ⟨bearers, chains, counts⟩ := ok.bearers_unlink live
  have released := (setChainHead_wf ok.names (ix.entries.nameId idx)
    (unlinkHead ix.entries.nextSame ix.entries.prevSame (ix.names.head (ix.entries.nameId idx)) idx)).release
    (ix.entries.nameId idx) (ok.name_live live)
  have final : ix.removeEntry idx = ((ix.unlinkEntry idx).withTree parent next prev first dirs dirty).freeEntry idx :=
    congrArg (freeEntry · idx) eq
  rw [final]
  set freed := ((ix.unlinkEntry idx).withTree parent next prev first dirs dirty).freeEntry idx
  have live_iff : ∀ e, freed.Live e ↔ ix.Live e ∧ e ≠ idx := EntryTable.live_tombstone idx
  -- a name some other entry bears is still live, so its bytes are as they were
  have kept : ∀ e, ix.Live e → e ≠ idx → NameStore.SameBytes ix.names freed.names (ix.entries.nameId e) := by
    intro e alive ne
    apply released.same
    have mem : e ∈ bearers (ix.entries.nameId e) := (chains.mem _ _).mpr ⟨⟨alive, ne⟩, rfl⟩
    rw [NameStore.Live, released.refcount]
    exact (counts _).symm ▸ length_pos_of_mem mem
  have same : ∀ e, freed.Live e → SameEntry ix freed e := by
    intro e there
    obtain ⟨alive, ne⟩ := (live_iff e).mp there
    have id : freed.entries.nameId e = ix.entries.nameId e := update_of_ne ne _ _
    refine ⟨rfl, update_of_ne ne _ _, rfl, rfl, update_of_ne ne _ _, ?_, ?_⟩
    · rw [rawName, id]
      exact (kept e alive ne).1
    · rw [foldedName, id]
      exact (kept e alive ne).2
  have parent_eq : ∀ e, ix.Live e → e ≠ idx → freed.entries.parent e =
      if ix.entries.parent e = some idx then some ix.lostFound else ix.entries.parent e := fun e alive ne =>
    (update_of_ne ne _ _).trans (moved e alive ne)
  have lost_live : freed.Live ix.lostFound := (live_iff _).mpr ⟨ok.lost_live, notLost.symm⟩
  refine ⟨ok.rebuilt ⟨rfl, rfl, rfl⟩ ?_ released.wf ?_ ?_ ?_ ⟨lost_live, ?_⟩ fun e there => ?_, ⟨rfl, rfl, rfl⟩, rfl, rfl,
    fun e => by simp [live_iff e], same, fun e there => ?_⟩
  · exact EntryTable.Slots.tombstone (t := ((ix.unlinkEntry idx).withTree parent next prev first dirs dirty).entries)
      (ok.slots.of_same (fun _ => rfl) rfl rfl rfl) live
  · obtain ⟨kids, tree⟩ := tree
    refine ⟨kids, tree.congr live_iff ?_ ?_ ?_ fun k => congrFun (update_eq_self_iff.mpr childless.symm) k⟩
    all_goals exact fun e there => update_of_ne there.2 _ _
  · refine ⟨bearers, chains.congr live_iff ?_ ?_ ?_ fun id => congrFun released.head id,
      fun id => (congrFun released.refcount id).trans (counts id)⟩
    · exact fun e there => update_of_ne there.2 _ _
    · exact fun e there => update_of_ne there.2 _ _
    · exact fun e there => congrArg some (update_of_ne there.2 _ _)
  · refine scope.congr rfl live_iff (fun e there => ?_) fun e there => Prod.ext (update_of_ne there.2 _ _) ?_
    · unfold indexed
      rw [(same e ((live_iff e).mpr there)).flags]
      rfl
    · exact congrArg Externals.fxHash (same e ((live_iff e).mpr there)).foldedName
  · simp [parent_eq _ ok.lost_live notLost.symm, ok.lost_top]
  · obtain ⟨alive, ne⟩ := (live_iff e).mp there
    rw [parent_eq e alive ne]
    cases above : ix.entries.parent e with
    | none => exact .inr ⟨alive, by simp, rfl⟩
    | some p =>
      by_cases orphan : p = idx
      · exact .inl ⟨ix.lostFound, by simp [orphan], lost_live⟩
      · exact .inl ⟨p, by simp [orphan], (live_iff p).mpr ⟨ok.parent_live e p alive above, orphan⟩⟩
  · obtain ⟨alive, ne⟩ := (live_iff e).mp there
    simp [parent_eq e alive ne]

end Goz.VolumeIndex
