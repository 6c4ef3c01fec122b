import Goz.Index.NameRuns

namespace Goz.NameStore

open Function

variable [Externals]

/-- The name each id was interned as and by how much its interns outnumber its releases. -/
abbrev Ledger := NameId → Option (Bytes × Nat)

/-- Runs of a name store and their ledger. Heads may change in between, as the entries that share a name do. -/
inductive Counted : Ledger → NameStore → Prop
  | new : Counted (fun _ => none) new
  | intern {held : Ledger} {s : NameStore} (before : Counted held s) (name : Bytes) :
      Counted (update held (s.intern name).2 (some (name, ((held (s.intern name).2).elim 0 Prod.snd) + 1))) (s.intern name).1
  | release {held : Ledger} {s : NameStore} (before : Counted held s) {id : NameId} (live : s.Live id)
      (unchained : s.refcount id = 1 → s.head id = none) :
      Counted (update held id ((held id).bind fun (name, n) => if n = 1 then none else some (name, n - 1))) (s.release id)
  | setChainHead {held : Ledger} {s : NameStore} (before : Counted held s) (id : NameId) (e : Option EntryIdx) :
      Counted held (s.setChainHead id e)
  | compact {held held' : Ledger} {s : NameStore} (before : Counted held s)
      (moved : ∀ id new, s.planCompact.remap id = some new → held' new = held id)
      (unused : ∀ new, (∀ id, s.planCompact.remap id ≠ some new) → held' new = none) :
      Counted held' (s.installCompacted s.planCompact)

variable {held : Ledger} {s : NameStore}

theorem Counted.reached (counted : Counted held s) : Reached s := by
  induction counted with
  | new => exact .new
  | intern _ name ih => exact ih.intern name
  | release _ live _ ih => exact ih.release live
  | setChainHead _ id e ih => exact ih.setChainHead id e
  | compact _ _ _ ih => exact ih.compact

/-- What the ledger says of an id, read off the store. -/
def entryOf (s : NameStore) (id : NameId) : Option (Bytes × Nat) :=
  if s.Live id then some (s.rawBytes id, s.refcount id) else none

omit [Externals] in
theorem entryOf_congr {s' : NameStore} {id : NameId} (count : s'.refcount id = s.refcount id)
    (raw : s.Live id → s'.rawBytes id = s.rawBytes id) : s'.entryOf id = s.entryOf id := by
  by_cases live : s.Live id
  · have live' : s'.Live id := by rwa [Live, count]
    rw [entryOf, entryOf, if_pos live, if_pos live', raw live, count]
  · have dead : ¬ s'.Live id := by rwa [Live, count]
    rw [entryOf, entryOf, if_neg live, if_neg dead]

theorem Counted.held_eq (counted : Counted held s) (id : NameId) : held id = s.entryOf id := by
  induction counted generalizing id with
  | new => rfl
  | @intern held s before name ih =>
    have interned := before.reached.tidy.wf.intern name
    have count := congrFun interned.refcount id
    by_cases same : id = (s.intern name).2
    · subst same
      rw [update_self] at count
      rw [update_self, entryOf, if_pos interned.live, interned.bytes, count, ih, entryOf]
      split
      · rfl
      · rename_i dead
        simp [Nat.eq_zero_of_not_pos dead]
    · rw [update_of_ne same] at count
      rw [update_of_ne same, ih, entryOf_congr count fun live => (interned.same id live).1]
  | @release held s before freed live unchained ih =>
    have released := before.reached.tidy.wf.release freed live
    have count := congrFun released.refcount id
    by_cases same : id = freed
    · subst same
      rw [update_self] at count
      rw [update_self, ih, entryOf, if_pos live, Option.bind_some, entryOf, count]
      by_cases last : s.refcount id = 1
      · have dead : ¬ (s.release id).Live id := by simp [Live, count, last]
        rw [if_neg dead]
        exact if_pos last
      · have more : (s.release id).Live id := by
          rw [Live] at live ⊢
          omega
        rw [if_pos more, (released.same id more).1]
        exact if_neg last
    · rw [update_of_ne same] at count
      rw [update_of_ne same, ih, entryOf_congr count fun live => (released.same id (by rwa [Live, count])).1]
  | setChainHead _ _ _ ih => exact ih id
  | @compact held held' s before moved unused ih =>
    have renumbered := before.reached.tidy.wf.installCompacted
    by_cases found : ∃ old, s.planCompact.remap old = some id
    · obtain ⟨old, remap⟩ := found
      have live := (renumbered.live old).mp ⟨id, remap⟩
      obtain ⟨raw, -, count, -⟩ := renumbered.moved old id remap
      rw [moved old id remap, ih, entryOf, entryOf, if_pos live, if_pos (by rwa [Live, count]), raw, count]
    · rw [unused id fun old remap => found ⟨old, remap⟩, entryOf, if_neg fun live => found (renumbered.onto id live)]

theorem Wf.intern_live (wf : s.Wf) {id : NameId} (live : s.Live id) : (s.intern (s.rawBytes id)).2 = id := by
  cases found : s.byBytes.find? fun other => s.rawBytes other = s.rawBytes id with
  | none => exact absurd (by simp) (List.find?_eq_none.mp found id ((wf.interned id).mpr live))
  | some other =>
    rw [NameStore.intern, found]
    have alive := (wf.interned other).mp (List.mem_of_find?_eq_some found)
    exact wf.distinct other id alive live (by simpa using List.find?_some found)

theorem Wf.offset_lt (wf : s.Wf) {a b : NameId} (less : a < b) (below : b < s.ids) :
    (s.pairs a).folded.off < (s.pairs b).folded.off := by
  obtain ⟨cells, rawCells, rawAt, laid⟩ := wf.laid
  obtain ⟨cellA, atA⟩ := laid.cell (less.trans below)
  obtain ⟨cellB, atB⟩ := laid.cell below
  rw [laid.folded_ref a cellA atA, laid.folded_ref b cellB atB]
  have next := Arena.start_succ 0 atA
  have later := Arena.start_mono 0 cells (show a + 1 ≤ b from less)
  simp only
  omega

end Goz.NameStore
