import Goz.Index.Rewrite
import Mathlib.Logic.Relation

namespace Goz.VolumeIndex

open Function Intrusive Option

variable [Externals] {touched : Frn → Prop} {ix ix' : VolumeIndex} {touched' : Frn → Prop}

def relabel (ix : VolumeIndex) (byFrn : FrnMap) (nextLink : EntryIdx → Option EntryIdx) (size : EntryIdx → UInt64)
    (mtime : EntryIdx → Int64) (stats : IndexStats) (dirty generation : Nat) : VolumeIndex :=
  { ix with
    entries := { ix.entries with nextLink := nextLink, size := size, mtime := mtime }
    byFrn := byFrn
    stats := stats
    dirty := dirty
    generation := generation }

def withNames (ix : VolumeIndex) (names : NameStore) : VolumeIndex := { ix with names := names }

def KeepsHeads (touched : Frn → Prop) (ix : VolumeIndex) (byFrn : FrnMap) : Prop :=
  ∀ frn head, ¬ touched frn → ix.Live head → ix.headOf frn = some head → byFrn.get frn.recordNumber = some head

/-- The writes every operation is made of. An entry is removed or rewritten only if `touched`
    holds of its FRN. -/
inductive Prim (touched : Frn → Prop) : VolumeIndex → VolumeIndex → Prop
  | remove {ix : VolumeIndex} {idx : EntryIdx} (live : ix.Live idx) (notLost : idx ≠ ix.lostFound)
      (touch : touched (ix.entries.frn idx)) : Prim touched ix (ix.removeEntry idx)
  | add {ix : VolumeIndex} (frn : Frn) {parent : EntryIdx} (name : Bytes) (flags : EntryFlags) (size : UInt64)
      (mtime : Int64) (parentLive : ix.Live parent) (alive : flags.tombstone = false)
      (plain : flags.lostFound = false ∧ (flags.placeholder = true → name = placeholderName ∧ parent = ix.lostFound)) :
      Prim touched ix ((ix.newEntry frn parent name flags size mtime).1.dirIndexInsert
        (ix.newEntry frn parent name flags size mtime).2)
  | rewrite {ix : VolumeIndex} {idx parent : EntryIdx} (name : Bytes) (nameLossy isDir : Bool) (live : ix.Live idx)
      (notLost : idx ≠ ix.lostFound) (parentLive : ix.Live parent) (touch : touched (ix.entries.frn idx)) :
      Prim touched ix (ix.rewriteEntry idx parent name nameLossy isDir)
  | relabel {ix : VolumeIndex} (byFrn : FrnMap) (nextLink : EntryIdx → Option EntryIdx) (size : EntryIdx → UInt64)
      (mtime : EntryIdx → Int64) (stats : IndexStats) (dirty generation : Nat) (heads : KeepsHeads touched ix byFrn) :
      Prim touched ix (ix.relabel byFrn nextLink size mtime stats dirty generation)
  | prune {ix : VolumeIndex} : Prim touched ix ix.pruneCycleSuspects
  | reorder {ix : VolumeIndex} {names : NameStore} (resorted : NameStore.Resorted ix.names names) :
      Prim touched ix (ix.withNames names)
  | compact {ix : VolumeIndex} : Prim touched ix (ix.applyCompaction ix.names.planCompact)

abbrev Steps (touched : Frn → Prop) : VolumeIndex → VolumeIndex → Prop := Relation.ReflTransGen (Prim touched)

omit [Externals] in
theorem headOf_some_iff {frn : Frn} {head : EntryIdx} : ix.headOf frn = some head ↔
    ix.byFrn.get frn.recordNumber = some head ∧ ix.entries.frn head = frn := by
  simp [headOf, filter_eq_some_iff]

omit [Externals] in
theorem KeepsHeads.same {byFrn : FrnMap} (same : byFrn.get = ix.byFrn.get) : KeepsHeads touched ix byFrn := by
  intro frn head _ _ found
  rw [same]
  exact (headOf_some_iff.mp found).1

theorem Prim.weaken (weaker : ∀ frn, touched frn → touched' frn)
    (step : Prim touched ix ix') : Prim touched' ix ix' := by
  cases step with
  | remove live notLost touch => exact .remove live notLost (weaker _ touch)
  | add frn name flags size mtime parentLive alive plain => exact .add frn name flags size mtime parentLive alive plain
  | rewrite name nameLossy isDir live notLost parentLive touch =>
    exact .rewrite name nameLossy isDir live notLost parentLive (weaker _ touch)
  | relabel byFrn nextLink size mtime stats dirty generation heads =>
    exact .relabel byFrn nextLink size mtime stats dirty generation fun frn head out =>
      heads frn head fun touch => out (weaker frn touch)
  | prune => exact .prune
  | reorder resorted => exact .reorder resorted
  | compact => exact .compact

theorem Steps.weaken (weaker : ∀ frn, touched frn → touched' frn) (steps : Steps touched ix ix') : Steps touched' ix ix' :=
  steps.lift id fun _ _ step => Prim.weaken weaker step

section Renames

variable {ix : VolumeIndex} (ok : ix.Integrity)
include ok

theorem Integrity.relabel (byFrn : FrnMap) (nextLink : EntryIdx → Option EntryIdx)
    (size : EntryIdx → UInt64) (mtime : EntryIdx → Int64) (stats : IndexStats) (dirty generation : Nat) :
    (ix.relabel byFrn nextLink size mtime stats dirty generation).Integrity :=
  { ok with slots := ok.slots.of_same (fun _ => rfl) rfl rfl rfl }

theorem Integrity.prune : ix.pruneCycleSuspects.Integrity := { ok with }

theorem Integrity.reorder {names : NameStore} (same : NameStore.Reordered ix.names names) :
    (ix.withNames names).Integrity :=
  { ok with
    names := ok.names.reordered same
    bearers := by
      obtain ⟨bearers, chains, counts⟩ := ok.bearers
      refine ⟨bearers, ?_, fun id => ?_⟩
      · exact chains.congr (fun _ => Iff.rfl) (fun _ _ => rfl) (fun _ _ => rfl) (fun _ _ => rfl) fun k =>
          congrFun same.head k
      · exact (congrFun same.refcount id).trans (counts id)
    scope := ok.scope.congr rfl (fun _ => Iff.rfl) (fun _ _ => rfl) fun e _ =>
      Prod.ext rfl (congrArg Externals.fxHash (same.sameBytes _).2) }

theorem Integrity.renumbered {e : EntryIdx} (live : ix.Live e) :
    ix.names.planCompact.remap (ix.entries.nameId e) =
        some ((ix.applyCompaction ix.names.planCompact).entries.nameId e) ∧
      (ix.applyCompaction ix.names.planCompact).rawName e = ix.rawName e ∧
      (ix.applyCompaction ix.names.planCompact).foldedName e = ix.foldedName e := by
  have renumbered := ok.names.installCompacted
  obtain ⟨new, remap⟩ := (renumbered.live _).mpr (ok.name_live live)
  have value : (ix.applyCompaction ix.names.planCompact).entries.nameId e = new := by
    have alive : ix.entries.isTombstone e = false := live
    simp [applyCompaction, alive, remap]
  obtain ⟨raw, folded, -, -⟩ := renumbered.moved _ new remap
  refine ⟨by rw [value, remap], ?_, ?_⟩
  · rw [rawName, value]
    exact raw
  · rw [foldedName, value]
    exact folded

theorem Integrity.compact : (ix.applyCompaction ix.names.planCompact).Integrity where
  slots := ok.slots.of_same (fun _ => rfl) rfl rfl rfl
  names := ok.names.installCompacted.wf
  tree := ok.tree
  parent_live := ok.parent_live
  bearers := by
    have renumbered := ok.names.installCompacted
    obtain ⟨bearers, chains, counts⟩ := ok.bearers
    classical
    let source : NameId → Option NameId := fun new =>
      if back : ∃ id, ix.names.planCompact.remap id = some new then some back.choose else none
    have source_eq : ∀ id new, ix.names.planCompact.remap id = some new → source new = some id := by
      intro id new remap
      have back : ∃ id, ix.names.planCompact.remap id = some new := ⟨id, remap⟩
      simp only [source, dif_pos back, Option.some.injEq]
      exact renumbered.inj _ _ new back.choose_spec remap
    have source_some : ∀ new id, source new = some id → ix.names.planCompact.remap id = some new := by
      intro new id found
      by_cases back : ∃ id, ix.names.planCompact.remap id = some new
      · have same : back.choose = id := by simpa only [source, dif_pos back, Option.some.injEq] using found
        exact same ▸ back.choose_spec
      · simp [source, dif_neg back] at found
    have source_none : ∀ new, source new = none → (ix.names.installCompacted ix.names.planCompact).refcount new = 0 := by
      intro new missing
      by_contra alive
      obtain ⟨id, remap⟩ := renumbered.onto new (Nat.pos_of_ne_zero alive)
      simp [source_eq id new remap] at missing
    refine ⟨fun new => ((source new).map bearers).getD [], ⟨fun new => ?_, fun new e => ?_⟩, fun new => ?_⟩
    · cases found : source new with
      | none =>
        show Chain _ _ ((ix.names.installCompacted ix.names.planCompact).head new) []
        rw [renumbered.headless new (source_none new found)]
        exact ⟨rfl, True.intro⟩
      | some id =>
        have moved := renumbered.moved id new (source_some new id found)
        show Chain _ _ ((ix.names.installCompacted ix.names.planCompact).head new) (bearers id)
        rw [moved.2.2.2]
        exact chains.chain id
    · have key : ∀ id, ix.Live e → source new = some id →
          (ix.entries.nameId e = id ↔ (ix.applyCompaction ix.names.planCompact).entries.nameId e = new) := by
        intro id live found
        have at_ := (ok.renumbered live).1
        constructor
        · rintro rfl
          exact some.inj (at_.symm.trans (source_some new _ found))
        · rintro rfl
          exact renumbered.inj _ _ _ at_ (source_some _ id found)
      cases found : source new with
      | none =>
        simp only [map_none, getD_none, List.not_mem_nil, false_iff, not_and]
        intro live at_
        have here : ix.names.planCompact.remap (ix.entries.nameId e) = some new :=
          (ok.renumbered live).1.trans at_
        simp [source_eq _ new here] at found
      | some id =>
        simp only [map_some, getD_some, chains.mem id e, Option.some.injEq]
        exact and_congr_right fun live => key id live found
    · cases found : source new with
      | none =>
        simp only [found, map_none, getD_none, List.length_nil]
        exact source_none new found
      | some id =>
        have moved := renumbered.moved id new (source_some new id found)
        simp only [found, map_some, getD_some]
        exact moved.2.2.1.trans (counts id)
  scope := ok.scope.congr rfl (fun _ => Iff.rfl) (fun _ _ => rfl) fun e live =>
    Prod.ext rfl (congrArg Externals.fxHash (ok.renumbered live).2.2)
  lost_live := ok.lost_live
  lost_top := ok.lost_top
  apart := ok.apart
  top := ok.top

end Renames

theorem Prim.integrity (step : Prim touched ix ix') (ok : ix.Integrity) : ix'.Integrity := by
  cases step with
  | remove live notLost _ => exact (ok.removeEntry live notLost).integrity
  | add frn name flags size mtime parentLive alive _ =>
    exact (ok.newEntry frn name flags size mtime parentLive alive).integrity
  | rewrite name nameLossy isDir live notLost parentLive _ =>
    exact (ok.rewriteEntry live notLost parentLive name nameLossy isDir).integrity
  | relabel byFrn nextLink size mtime stats dirty generation _ =>
    exact ok.relabel byFrn nextLink size mtime stats dirty generation
  | prune => exact ok.prune
  | reorder resorted => exact ok.reorder resorted.reordered
  | compact => exact ok.compact

/-- An entry that is as it was, or whose folder is gone and which is under lost+found. -/
structure Carried (ix ix' : VolumeIndex) (e : EntryIdx) : Prop where
  live : ix.Live e
  frn : ix'.entries.frn e = ix.entries.frn e
  flags : ix'.entries.flags e = ix.entries.flags e
  rawName : ix'.rawName e = ix.rawName e
  parent : ix'.entries.parent e = ix.entries.parent e ∨
    ix'.entries.parent e = some ix.lostFound ∧ ix.entries.parent e ≠ none

structure Written (ix ix' : VolumeIndex) (e : EntryIdx) : Prop where
  parent : ix'.entries.parent e ≠ none
  placeholder : (ix'.entries.flags e).placeholder = true →
    ix'.rawName e = placeholderName ∧ ix'.entries.parent e = some ix.lostFound
  lostFound : (ix'.entries.flags e).lostFound = true → ix.Live e ∧ (ix.entries.flags e).lostFound = true

/-- What a write does to the entries: each one after it was carried over or written, and those it
    does not touch were carried over. -/
structure Effect (touched : Frn → Prop) (ix ix' : VolumeIndex) : Prop where
  root : ix'.root = ix.root
  lost : ix'.lostFound = ix.lostFound
  kept : ∀ e, ix.Live e → e = ix.lostFound ∨ ¬ touched (ix.entries.frn e) → ix'.Live e ∧ Carried ix ix' e
  after : ∀ e, ix'.Live e → Carried ix ix' e ∨ Written ix ix' e
  heads : KeepsHeads touched ix ix'.byFrn

omit [Externals] in
theorem Effect.of_carried (same : ix'.root = ix.root ∧ ix'.lostFound = ix.lostFound) (live : ∀ e, ix'.Live e ↔ ix.Live e)
    (carried : ∀ e, ix.Live e → Carried ix ix' e) (heads : KeepsHeads touched ix ix'.byFrn) : Effect touched ix ix' :=
  ⟨same.1, same.2, fun e there _ => ⟨(live e).mpr there, carried e there⟩,
    fun e there => .inl (carried e ((live e).mp there)), heads⟩

theorem Prim.effect (step : Prim touched ix ix') (ok : ix.Integrity) : Effect touched ix ix' := by
  cases step with
  | @remove idx live notLost touch =>
    have removed := ok.removeEntry live notLost
    have carried : ∀ e, (ix.removeEntry idx).Live e → Carried ix (ix.removeEntry idx) e := by
      intro e there
      have same := removed.same e there
      refine ⟨((removed.live e).mp there).1, same.frn, same.flags, same.rawName, ?_⟩
      rw [removed.parents e there]
      split
      case isTrue orphan =>
        obtain ⟨p, -, at_⟩ := orphan
        exact .inr ⟨rfl, by simp [at_]⟩
      case isFalse => exact .inl rfl
    refine ⟨removed.frame.root, removed.frame.lostFound, ?_, fun e there => .inl (carried e there),
      .same (congrArg _ removed.byFrn)⟩
    intro e there out
    have away : e ≠ idx := by
      rintro rfl
      exact out.elim notLost (· touch)
    have still := (removed.live e).mpr ⟨there, by simpa using away⟩
    exact ⟨still, carried e still⟩
  | @add frn parent name flags size mtime parentLive alive plain =>
    have added := ok.newEntry frn name flags size mtime parentLive alive
    have carried := fun e there => Carried.mk there (added.same e there).frn (added.same e there).flags
      (added.same e there).rawName (.inl (added.parents e there))
    refine ⟨added.frame.root, added.frame.lostFound, fun e there _ => ⟨(added.live e).mpr (.inl there), carried e there⟩, ?_,
      .same (congrArg _ added.byFrn)⟩
    intro e there
    rcases (added.live e).mp there with before | rfl
    · exact .inl (carried e before)
    · refine .inr ⟨by simp [added.entry.parent], ?_, ?_⟩
      · rw [added.entry.flags, added.entry.rawName, added.entry.parent]
        intro mark
        rw [(plain.2 mark).1, (plain.2 mark).2]
        exact ⟨rfl, rfl⟩
      · rw [added.entry.flags, plain.1]
        exact nofun
  | @rewrite idx parent name nameLossy isDir live notLost parentLive touch =>
    have rewritten := ok.rewriteEntry live notLost parentLive name nameLossy isDir
    have carried := fun e there away => Carried.mk there (rewritten.same e there away).frn
      (rewritten.same e there away).flags (rewritten.same e there away).rawName (.inl (rewritten.parents e there away))
    refine ⟨rewritten.frame.root, rewritten.frame.lostFound, ?_, ?_, .same (congrArg _ rewritten.byFrn)⟩
    · intro e there out
      refine ⟨(rewritten.live e).mpr there, carried e there ?_⟩
      rintro rfl
      exact out.elim notLost (· touch)
    · intro e there
      by_cases own : e = idx
      · subst own
        refine .inr ⟨by simp [rewritten.entry.parent], ?_, ?_⟩
        · rw [rewritten.entry.flags]
          exact nofun
        · rw [rewritten.entry.flags]
          exact fun mark => ⟨live, mark⟩
      · exact .inl (carried e ((rewritten.live e).mp there) own)
  | relabel byFrn nextLink size mtime stats dirty generation heads =>
    exact .of_carried ⟨rfl, rfl⟩ (fun _ => Iff.rfl) (fun _ live => ⟨live, rfl, rfl, rfl, .inl rfl⟩) heads
  | prune => exact .of_carried ⟨rfl, rfl⟩ (fun _ => Iff.rfl) (fun _ live => ⟨live, rfl, rfl, rfl, .inl rfl⟩) (.same rfl)
  | reorder resorted =>
    exact .of_carried ⟨rfl, rfl⟩ (fun _ => Iff.rfl)
      (fun _ live => ⟨live, rfl, rfl, (resorted.reordered.sameBytes _).1, .inl rfl⟩) (.same rfl)
  | compact =>
    exact .of_carried ⟨rfl, rfl⟩ (fun _ => Iff.rfl) (fun _ live => ⟨live, rfl, rfl, (ok.renumbered live).2.1, .inl rfl⟩)
      (.same rfl)

theorem Steps.integrity (steps : Steps touched ix ix') (ok : ix.Integrity) : ix'.Integrity := by
  induction steps with
  | refl => exact ok
  | tail _ step ih => exact step.integrity ih

theorem Steps.preserves {kept : VolumeIndex → Prop}
    (step : ∀ {ix ix' : VolumeIndex}, Prim touched ix ix' → ix.Integrity → kept ix → kept ix') (steps : Steps touched ix ix') (ok : ix.Integrity) (holds : kept ix) : kept ix' := by
  induction steps with
  | refl => exact holds
  | tail before last ih => exact step last (Steps.integrity before ok) ih

end Goz.VolumeIndex
