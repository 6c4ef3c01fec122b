import Goz.Index.Paths
import Goz.Index.Root

namespace Goz.VolumeIndex

open Function Intrusive Ascent Option

variable {ix : VolumeIndex} {rootFrn : Frn} {e : EntryIdx} {k : Nat}

theorem isAtOrBelowWithin_of_ascend (root : ix.entries.parent ix.root = none)
    (lost : ix.entries.parent ix.lostFound = none) {hops : Nat} {node ancestor : EntryIdx}
    (at_ : ascend ix.entries.parent k node = some ancestor) (lt : k < hops) :
    ix.isAtOrBelowWithin hops (some node) ancestor = true := by
  induction hops generalizing k node with
  | zero => omega
  | succ hops ih =>
    by_cases here : node = ancestor
    · simp [isAtOrBelowWithin, here]
    · cases k with
      | zero => exact absurd (some.inj at_) here
      | succ k =>
        obtain ⟨above, first, rest⟩ := bind_eq_some_iff.mp at_
        have inner : ¬ (node = ix.root ∨ node = ix.lostFound) := by
          rintro (rfl | rfl)
          · rw [root] at first
            cases first
          · rw [lost] at first
            cases first
        have found := ih rest (by omega)
        simp only [isAtOrBelowWithin, Option.some.injEq, here, inner, if_false, first]
        exact found

section Cycles

variable [Externals] {ix' : VolumeIndex} {touched : Frn → Prop} {parent idx : EntryIdx} {name : Bytes}

theorem Integrity.ascend_live (ok : ix.Integrity) {top : EntryIdx} (live : ix.Live e)
    (at_ : ascend ix.entries.parent k e = some top) : ix.Live top := by
  induction k generalizing e with
  | zero =>
    obtain rfl : e = top := some.inj at_
    exact live
  | succ k ih =>
    obtain ⟨above, first, rest⟩ := bind_eq_some_iff.mp at_
    exact ih (ok.parent_live e above live first) rest

omit [Externals] in
def CyclesNoted (ix : VolumeIndex) : Prop :=
  ∀ k e, 0 < k → k ≤ maxPathHops → ix.Live e → ascend ix.entries.parent k e = some e →
    ∃ j < k, ∃ s, ascend ix.entries.parent j e = some s ∧ s ∈ ix.cycleSuspects

variable (noted : ix.CyclesNoted)
include noted

omit [Externals] in
theorem CyclesNoted.of_cycles (suspects : ∀ s ∈ ix.cycleSuspects, s ∈ ix'.cycleSuspects) (pos : 0 < k) (bound : k ≤ maxPathHops) (live : ix.Live e)
    (cycle : ascend ix'.entries.parent k e = some e)
    (same : ∀ j < k, ∀ mid, ascend ix'.entries.parent j e = some mid → ix.entries.parent mid = ix'.entries.parent mid) :
    ∃ j < k, ∃ s, ascend ix'.entries.parent j e = some s ∧ s ∈ ix'.cycleSuspects := by
  have agree : ∀ j ≤ k, ascend ix.entries.parent j e = ascend ix'.entries.parent j e := by
    intro j le
    apply ascend_congr
    intro i lt mid at_
    exact same i (by omega) mid at_
  obtain ⟨j, lt, s, at_, noted⟩ := noted k e pos bound live ((agree k le_rfl).trans cycle)
  rw [agree j (by omega)] at at_
  exact ⟨j, lt, s, at_, suspects s noted⟩

theorem CyclesNoted.remove {gone : List EntryIdx} (removed : Removed ix gone ix') :
    ix'.CyclesNoted := by
  intro k e pos bound live cycle
  have ok := removed.integrity
  apply noted.of_cycles (fun s inside => removed.suspects ▸ inside) pos bound ((removed.live e).mp live).1 cycle
  intro j lt mid at_
  have parent := removed.parents mid (ok.ascend_live live at_)
  split at parent
  case isFalse => exact parent.symm
  case isTrue =>
    -- an orphan's way up ends at lost+found
    have next : ascend ix'.entries.parent (j + 1) e = some ix.lostFound := by
      rw [ascend_of_ascend at_, ascend_one, parent]
    obtain ⟨above, beyond⟩ := up_of_cycle pos cycle next
    rw [← removed.frame.lostFound, ok.lost_top] at beyond
    cases beyond

theorem CyclesNoted.add (ok : ix.Integrity) {frn : Frn}
    {flags : EntryFlags} {size : UInt64} {mtime : Int64} (parentLive : ix.Live parent)
    (added : Added ix frn parent name flags size mtime ix' idx) : ix'.CyclesNoted := by
  intro k e pos bound live cycle
  -- a new slot is nobody's parent
  have older : ∀ j ≤ k, ∀ mid, ascend ix'.entries.parent j e = some mid → ix.Live mid := by
    intro j le mid at_
    obtain ⟨below, reached, last⟩ := cycle_last pos (cycle_at cycle le at_)
    have there := added.integrity.ascend_live (added.integrity.ascend_live live at_) reached
    rcases (added.live below).mp there with old | rfl
    · rw [added.parents below old] at last
      exact ok.parent_live below mid old last
    · rw [added.entry.parent] at last
      rwa [← some.inj last]
  apply noted.of_cycles (fun s inside => added.suspects ▸ inside) pos bound (older 0 (Nat.zero_le k) e rfl) cycle
  intro j lt mid at_
  exact (added.parents mid (older j (by omega) mid at_)).symm

theorem CyclesNoted.rewrite (ok : ix.Integrity) (root : ix.entries.parent ix.root = none) {nameLossy isDir : Bool}
    (rewritten : Rewritten ix idx parent name nameLossy isDir ix') : ix'.CyclesNoted := by
  intro k e pos bound live cycle
  have grown : ∀ s ∈ ix.cycleSuspects, s ∈ ix'.cycleSuspects := by
    intro s inside
    rw [rewritten.suspects]
    split
    · exact List.mem_append_left _ inside
    · exact inside
  have still : ∀ j mid, ascend ix'.entries.parent j e = some mid → ix.Live mid := fun j mid at_ =>
    (rewritten.live mid).mp (rewritten.integrity.ascend_live live at_)
  by_cases through : ∃ j < k, ascend ix'.entries.parent j e = some idx
  · obtain ⟨j, lt, here⟩ := through
    refine ⟨j, lt, idx, here, ?_⟩
    obtain ⟨above, first, back⟩ := cycle_first pos (cycle_at cycle (by omega) here)
    obtain rfl : parent = above := some.inj (rewritten.entry.parent.symm.trans first)
    -- up to the first return to `idx` the old parents lead the same way
    obtain ⟨n, le, hit, least⟩ := first_hit back
    have old : ascend ix.entries.parent n parent = some idx := by
      rw [← hit]
      apply ascend_congr
      intro i lt mid at_
      have reached : ascend ix'.entries.parent (j + (1 + i)) e = some mid := by
        rw [ascend_of_ascend here, ascend_of_ascend ((ascend_one idx).trans first), at_]
      have other : mid ≠ idx := fun same => least i lt (same ▸ at_)
      exact (rewritten.parents mid (still _ mid reached) other).symm
    have below : ix.isAtOrBelow (some parent) idx = true :=
      isAtOrBelowWithin_of_ascend root ok.lost_top old (by omega)
    rw [rewritten.suspects]
    split
    · simp
    case isFalse known => simpa [below] using known
  · push Not at through
    apply noted.of_cycles grown pos bound ((rewritten.live e).mp live) cycle
    intro j lt mid at_
    exact (rewritten.parents mid (still j mid at_) fun same => through j lt (same ▸ at_)).symm

omit [Externals] in
theorem CyclesNoted.prune (lost : ix.entries.parent ix.lostFound = none)
    (root : ix.entries.parent ix.root = none) : ix.pruneCycleSuspects.CyclesNoted := by
  intro k e pos bound live cycle
  have cycle : ascend ix.entries.parent k e = some e := cycle
  obtain ⟨j, lt, s, at_, inside⟩ := noted k e pos bound live cycle
  refine ⟨j, lt, s, at_, List.mem_filter.mpr ⟨inside, ?_⟩⟩
  obtain ⟨above, first, back⟩ := cycle_first pos (cycle_at cycle (by omega) at_)
  rw [first]
  exact isAtOrBelowWithin_of_ascend root lost back (by omega)

omit noted

theorem Prim.cyclesNoted (step : Prim touched ix ix') (ok : ix.Integrity)
    (root : ix.entries.parent ix.root = none) (noted : ix.CyclesNoted) : ix'.CyclesNoted := by
  cases step with
  | remove live notLost _ => exact noted.remove (ok.removeEntry live notLost)
  | add frn name flags size mtime parentLive alive _ =>
    exact noted.add ok parentLive (ok.newEntry frn name flags size mtime parentLive alive)
  | rewrite name nameLossy isDir live notLost parentLive _ =>
    exact noted.rewrite ok root (ok.rewriteEntry live notLost parentLive name nameLossy isDir)
  | relabel byFrn nextLink size mtime stats dirty generation _ => exact noted
  | prune => exact noted.prune ok.lost_top root
  | reorder _ => exact noted
  | compact => exact noted

theorem Undisturbed.cyclesNoted (run : Undisturbed rootFrn ix) : ix.CyclesNoted := by
  induction run with
  | new empty =>
    intro k e pos _ live cycle
    obtain ⟨above, first, -⟩ := cycle_first pos cycle
    rw [parent_new] at first
    cases first
  | step op before _ spared ih =>
    have inv := before.reachable.invariant
    have kept := Steps.preserves (fun step ok (both : Rooted rootFrn _ ∧ CyclesNoted _) =>
      ⟨step.rooted spared ok both.1, step.cyclesNoted ok both.1.top both.2⟩) (inv.run op).steps inv.integrity
      ⟨before.rooted, ih⟩
    exact kept.2

omit [Externals] in
def LoopsNoted (ix : VolumeIndex) : Prop := ∀ e, ix.Live e → ix.entries.parent e = some e → e ∈ ix.cycleSuspects

omit [Externals] in
theorem isAtOrBelow_self (e : EntryIdx) : ix.isAtOrBelow (some e) e = true := if_pos rfl

theorem Prim.loopsNoted (step : Prim touched ix ix') (ok : ix.Integrity) (noted : ix.LoopsNoted) : ix'.LoopsNoted := by
  intro e live loop
  cases step with
  | remove there notLost _ =>
    have removed := ok.removeEntry there notLost
    have before := ((removed.live e).mp live).1
    rw [removed.parents e live] at loop
    rw [removed.suspects]
    split at loop
    case isTrue orphaned =>
      obtain ⟨p, -, at_⟩ := orphaned
      rw [← some.inj loop, ok.lost_top] at at_
      cases at_
    · exact noted e before loop
  | add frn name flags size mtime parentLive alive _ =>
    have added := ok.newEntry frn name flags size mtime parentLive alive
    rw [added.suspects]
    rcases (added.live e).mp live with before | rfl
    · rw [added.parents e before] at loop
      exact noted e before loop
    · rw [added.entry.parent] at loop
      exact absurd (some.inj loop ▸ parentLive) added.fresh
  | rewrite name nameLossy isDir there notLost parentLive _ =>
    rename_i idx parent _
    have rewritten := ok.rewriteEntry there notLost parentLive name nameLossy isDir
    rw [rewritten.suspects]
    by_cases own : e = idx
    · rw [own, rewritten.entry.parent] at loop
      rw [own, some.inj loop, isAtOrBelow_self]
      by_cases known : idx ∈ ix.cycleSuspects
      · simp [known]
      · simp [known]
    · have before := (rewritten.live e).mp live
      rw [rewritten.parents e before own] at loop
      split
      · exact List.mem_append_left _ (noted e before loop)
      · exact noted e before loop
  | relabel byFrn nextLink size mtime stats dirty generation _ => exact noted e live loop
  | prune =>
    have loop : ix.entries.parent e = some e := loop
    refine List.mem_filter.mpr ⟨noted e live loop, ?_⟩
    rw [loop]
    exact isAtOrBelow_self e
  | reorder _ => exact noted e live loop
  | compact => exact noted e live loop

theorem Reachable.loopsNoted (reachable : Reachable rootFrn ix) : ix.LoopsNoted := by
  induction reachable with
  | new empty =>
    intro e _ loop
    rw [parent_new] at loop
    cases loop
  | step op before _ ih =>
    have inv := before.invariant
    exact Steps.preserves Prim.loopsNoted (inv.run op).steps inv.integrity ih

end Cycles

section Gate

variable [Externals]

omit [Externals] in
def HopsBounded (ix : VolumeIndex) : Prop :=
  (∀ e k top, ix.Live e → ascend ix.entries.parent k e = some top → ix.entries.parent top = none → k < maxPathHops) ∧
  (∀ e k, ix.Live e → 0 < k → ascend ix.entries.parent k e = some e →
    ∃ j, 0 < j ∧ j ≤ maxPathHops ∧ ascend ix.entries.parent j e = some e)

omit [Externals] in
theorem CyclesNoted.all (noted : ix.CyclesNoted) (bounded : ix.HopsBounded) (pos : 0 < k)
    (live : ix.Live e) (cycle : ascend ix.entries.parent k e = some e) :
    ∃ j < k, ∃ s, ascend ix.entries.parent j e = some s ∧ s ∈ ix.cycleSuspects := by
  by_cases short : k ≤ maxPathHops
  · exact noted k e pos short live cycle
  · obtain ⟨n, pos', le, cycle'⟩ := bounded.2 e k live pos cycle
    obtain ⟨j, lt, found⟩ := noted n e pos' le live cycle'
    exact ⟨j, by omega, found⟩

theorem Integrity.ascend_root (ok : ix.Integrity) (orphans : ix.hasOrphans = false)
    (acyclic : ∀ k e, 0 < k → ix.Live e → ascend ix.entries.parent k e ≠ some e) (live : ix.Live e)
    (notLost : e ≠ ix.lostFound) : ∃ k, ascend ix.entries.parent k e = some ix.root ∧ ix.entries.parent ix.root = none := by
  have inside : ∀ j mid, ascend ix.entries.parent j e = some mid → mid ∈ Finset.range ix.entries.capacity := by
    intro j mid at_
    exact Finset.mem_range.mpr (ok.slots.live_lt mid (ok.ascend_live live at_))
  obtain ⟨k, top, at_, end_⟩ := exists_top inside fun j mid at_ n pos =>
    acyclic n mid pos (ok.ascend_live live at_)
  rcases ok.top top (ok.ascend_live live at_) end_ with rfl | rfl
  · exact ⟨k, at_, end_⟩
  · cases k with
    | zero => exact absurd (some.inj at_) notLost
    | succ k =>
      -- the last step before lost+found would be an orphan's
      obtain ⟨below, before, last⟩ := ascend_last at_
      obtain ⟨kids, tree⟩ := ok.tree
      have child := (tree.mem ix.lostFound below).mpr ⟨ok.ascend_live live before, last⟩
      have head := (tree.chain ix.lostFound).linked.head
      have empty : ix.entries.firstChild ix.lostFound = none := by simpa [hasOrphans] using orphans
      rw [empty] at head
      rw [List.head?_eq_none_iff.mp head.symm] at child
      cases child

end Gate

/-- The gate is sound: every cycle holds a suspect, and where the gate sees neither orphans nor
    suspects every entry has a path. -/
theorem presentability_gate_sound [Externals] {rootFrn : Frn} {ix : VolumeIndex} (run : RootFree rootFrn ix)
    (bounded : ix.HopsBounded) :
    (∀ k e, 0 < k → ix.Live e → ascend ix.entries.parent k e = some e →
      ∃ j < k, ∃ s, ascend ix.entries.parent j e = some s ∧ s ∈ ix.cycleSuspects) ∧
    (ix.mayHaveUnpresentable = false → ∀ e, ix.Live e → e ≠ ix.lostFound → ∀ out, (ix.pathOf e out).1 = .ok) := by
  have noted := run.undisturbed.cyclesNoted
  have ok := run.undisturbed.reachable.invariant.integrity
  refine ⟨fun k e pos live cycle => noted.all bounded pos live cycle, ?_⟩
  intro gate e live notLost out
  obtain ⟨orphans, unsuspected⟩ := Bool.or_eq_false_iff.mp gate
  have clean : ix.cycleSuspects = [] := by simpa [hasParentCycle] using unsuspected
  have acyclic : ∀ k e, 0 < k → ix.Live e → ascend ix.entries.parent k e ≠ some e := by
    intro k e pos live cycle
    obtain ⟨j, -, s, -, inside⟩ := noted.all bounded pos live cycle
    rw [clean] at inside
    cases inside
  obtain ⟨k, at_, end_⟩ := ok.ascend_root orphans acyclic live notLost
  have last := trail_last at_ end_ (bounded.1 e k _ live at_ end_)
  rw [← pathChain_eq] at last
  have alive : ix.entries.isTombstone e = false := live
  simp [pathOf, alive, last, end_, ok.apart]

theorem folderIndex_parent (e : EntryIdx) : folderIndex.entries.parent e = if e = 2 then some 0 else none := by
  show update (update (update (fun _ => none) 0 none) 1 none) 2 (some 0) e = _
  by_cases two : e = 2
  · simp [two]
  · simp only [update_of_ne two, two, if_false]
    exact update_none (update_none (fun _ => rfl) 0) 1 e

theorem folderIndex_hopsBounded : folderIndex.HopsBounded := by
  have root : ∀ k, ascend folderIndex.entries.parent (k + 1) 0 = none := by
    intro k
    rw [ascend_succ, folderIndex_parent]
    rfl
  have short : ∀ k e top, ascend folderIndex.entries.parent k e = some top → k < 2 := by
    intro k e top at_
    by_contra long
    obtain ⟨n, rfl⟩ : ∃ n, k = n + 1 + 1 := ⟨k - 2, by omega⟩
    rw [ascend_succ, folderIndex_parent] at at_
    split at at_
    · rw [bind_some, root] at at_
      cases at_
    · cases at_
  constructor
  · intro e k top _ at_ _
    have lt := short k e top at_
    unfold maxPathHops
    omega
  · intro e k _ pos cycle
    have lt := short k e e cycle
    refine ⟨k, pos, ?_, cycle⟩
    unfold maxPathHops
    omega

theorem folderIndex_presentable :
    folderIndex.mayHaveUnpresentable = false ∧ (folderIndex.pathOf 2 []).1 = .ok :=
  letI := Externals.ascii
  ⟨by decide, (presentability_gate_sound
    (.step (.insertEnum folderRecord) (.new fun _ => rfl) trivial
      ⟨by decide, by decide, fun parent mem => by
        rw [List.mem_singleton.mp mem]
        exact fun stale => stale.1 rfl⟩) folderIndex_hopsBounded).2 (by decide) 2 (by decide) (by decide) []⟩

end Goz.VolumeIndex
