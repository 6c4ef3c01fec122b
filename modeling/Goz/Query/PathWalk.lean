import Goz.Query.Subtree

namespace Goz.Query

open Ascent VolumeIndex List Option Asking

section Tops

variable {ix : VolumeIndex} {piece : Bytes} {maxVisits : Nat}

theorem foldl_bearers (ids : List NameId) (found : Nat × List EntryIdx) :
    let all := ids.foldl (fun (found : Nat × List EntryIdx) id =>
      let bearing := found.1 + ix.names.refcount id
      (bearing, if bearing ≤ maxVisits then found.2 ++ ix.nameChain id else found.2)) found
    found.1 ≤ all.1 ∧ (all.1 ≤ maxVisits → all.2 = found.2 ++ ids.flatMap ix.nameChain) := by
  induction ids generalizing found with
  | nil => simp
  | cons id rest ih =>
    rw [foldl_cons]
    obtain ⟨grows, listed⟩ := ih (found.1 + ix.names.refcount id,
      if found.1 + ix.names.refcount id ≤ maxVisits then found.2 ++ ix.nameChain id else found.2)
    dsimp only at grows listed ⊢
    refine ⟨by omega, fun few => ?_⟩
    rw [listed few, if_pos (by omega), flatMap_cons, append_assoc]

def topsFor (ix : VolumeIndex) (piece : Bytes) (maxVisits : Nat) : List EntryIdx := (bearers ix piece maxVisits).2.mergeSort

variable [Externals]

theorem mem_prefilterHits (ok : ix.Integrity) (nonempty : piece ≠ []) (plain : 0 ∉ piece) {id : NameId} :
    id ∈ prefilterHits ix.names piece ↔ id < ix.names.ids ∧ piece <:+: ix.names.foldedBytesOf id := by
  rw [prefilterHits, prefilterHitsIn_eq ok.names.laid nonempty le_rfl]
  simp [plain]

theorem tops_spec (ok : ix.Integrity) (nonempty : piece ≠ []) (plain : 0 ∉ piece) (few : (bearers ix piece maxVisits).1 ≤ maxVisits) :
    (topsFor ix piece maxVisits).Nodup ∧ ∀ e, e ∈ topsFor ix piece maxVisits ↔ ix.Live e ∧ piece <:+: ix.foldedName e := by
  have listed : (bearers ix piece maxVisits).2 = (prefilterHits ix.names piece).flatMap ix.nameChain := by
    exact (foldl_bearers (prefilterHits ix.names piece) (0, [])).2 few
  have sorted : (topsFor ix piece maxVisits).Perm ((prefilterHits ix.names piece).flatMap ix.nameChain) := by
    rw [← listed]
    exact mergeSort_perm _ _
  constructor
  · refine sorted.nodup_iff.mpr (nodup_flatMap.mpr ⟨fun id _ => (ok.nameChain id).1.nodup, ?_⟩)
    have distinct : (prefilterHits ix.names piece).Nodup := by
      rw [prefilterHits, prefilterHitsIn_eq ok.names.laid nonempty le_rfl]
      exact Nodup.filter _ nodup_range'
    refine distinct.imp fun {a b} differ e inA inB => ?_
    have atA := (((ok.nameChain a).2.1 e).mp inA).2
    have atB := (((ok.nameChain b).2.1 e).mp inB).2
    exact differ (atA.symm.trans atB)
  · intro e
    rw [sorted.mem_iff, mem_flatMap]
    constructor
    · rintro ⟨id, hit, mem⟩
      obtain ⟨live, rfl⟩ := ((ok.nameChain id).2.1 e).mp mem
      exact ⟨live, ((mem_prefilterHits ok nonempty plain).mp hit).2⟩
    · rintro ⟨live, held⟩
      refine ⟨ix.entries.nameId e, ?_, ((ok.nameChain _).2.1 e).mpr ⟨live, rfl⟩⟩
      exact (mem_prefilterHits ok nonempty plain).mpr ⟨ok.names.live_lt _ (ok.name_live live), held⟩

/-- The way up from an entry ends outside lost+found, near enough, and passes none of `tops`. -/
structure Starts (ix : VolumeIndex) (tops : List EntryIdx) (hops : Nat) (e : EntryIdx) : Prop where
  way : ∃ k < hops, ∃ last, ascend ix.entries.parent k e = some last ∧ ix.entries.parent last = none ∧ last ≠ ix.lostFound
  alone : ∀ j t, ascend ix.entries.parent (j + 1) e = some t → t ∉ tops

omit [Externals] in
theorem walkStartsAt_iff {tops : List EntryIdx} {hops : Nat} {e : EntryIdx} :
    walkStartsAt ix tops hops e = true ↔ Starts ix tops hops e := by
  induction hops generalizing e with
  | zero => exact iff_of_false (by simp [walkStartsAt]) fun starts => by obtain ⟨k, lt, -⟩ := starts.way; simp at lt
  | succ hops ih =>
    rw [walkStartsAt]
    cases up : ix.entries.parent e with
    | none =>
      simp only [decide_eq_true_eq]
      constructor
      · refine fun notLost => ⟨⟨0, Nat.succ_pos _, e, rfl, up, notLost⟩, fun j t at_ => ?_⟩
        rw [ascend_succ, up] at at_
        cases at_
      · rintro ⟨⟨k, -, last, way, -, notLost⟩, -⟩
        have zero := Nat.le_zero.mp (le_of_top (ascend_zero e) up way)
        subst zero
        obtain rfl := some.inj way
        exact notLost
    | some parent =>
      have higher (j : Nat) : ascend ix.entries.parent (j + 1) e = ascend ix.entries.parent j parent := by
        rw [ascend_succ, up]
        rfl
      dsimp only
      split
      case isTrue another =>
        exact iff_of_false (by simp) fun starts => starts.alone 0 parent (higher 0) another
      case isFalse away =>
        rw [ih]
        constructor
        · rintro ⟨⟨k, lt, last, way, rest⟩, alone⟩
          refine ⟨⟨k + 1, Nat.succ_lt_succ lt, last, (higher k).trans way, rest⟩, fun j t at_ => ?_⟩
          rw [higher] at at_
          cases j with
          | zero =>
            obtain rfl := some.inj at_
            exact away
          | succ j => exact alone j t at_
        · rintro ⟨⟨k, lt, last, way, end_, notLost⟩, alone⟩
          refine ⟨?_, fun j t at_ => alone (j + 1) t ((higher (j + 1)).trans at_)⟩
          cases k with
          | zero =>
            obtain rfl := some.inj way
            rw [up] at end_
            cases end_
          | succ k => exact ⟨k, Nat.lt_of_succ_lt_succ lt, last, (higher k).symm.trans way, end_, notLost⟩

end Tops

section Visits

variable {σ : Type} {ix : VolumeIndex} {maxVisits : Nat} (visit : σ → EntryIdx → Asking σ)

def visitAll (start : σ) (entries : List EntryIdx) : σ := entries.foldl (fun st idx => (visit st idx).quiet) start

theorem quiet_walkBelow (entries : List EntryIdx) (walk : PathWalk σ) (open_ : walk.outcome = none) (room : walk.visited ≤ maxVisits) :
    (walk.visited + entries.length ≤ maxVisits → ∃ watch, (walkBelow visit maxVisits entries walk).quiet =
      ⟨visitAll visit walk.state entries, watch, walk.visited + entries.length, none⟩) ∧
    (maxVisits < walk.visited + entries.length → (walkBelow visit maxVisits entries walk).quiet.outcome = some false) := by
  induction entries generalizing walk with
  | nil =>
    refine ⟨fun _ => ⟨walk.watch, ?_⟩, fun many => absurd room (Nat.not_le_of_lt many)⟩
    rw [walkBelow, quiet_pure, ← open_]
    rfl
  | cons idx rest ih =>
    rw [walkBelow, length_cons]
    dsimp only
    by_cases past : walk.visited + 1 > maxVisits
    · rw [if_pos past]
      exact ⟨fun few => by omega, fun _ => rfl⟩
    · rw [if_neg past]
      simp only [quiet_bind, Watch.quiet_tick, Bool.false_eq_true, if_false]
      obtain ⟨all, many⟩ := ih ⟨(visit walk.state idx).quiet, walk.watch.tick.quiet.2, walk.visited + 1, walk.outcome⟩ open_
        (Nat.le_of_not_gt past)
      dsimp only at all many
      rw [Nat.add_assoc, Nat.add_comm 1] at all many
      exact ⟨all, many⟩

def walkFrom (ix : VolumeIndex) (maxVisits : Nat) (top : EntryIdx) : List EntryIdx := top :: subtreeEntries ix top (maxVisits + 1)

theorem quiet_walkTops (tops rest : List EntryIdx) (walk : PathWalk σ) (open_ : walk.outcome = none) (room : walk.visited ≤ maxVisits) :
    let calls := (rest.filter (walkStartsAt ix tops maxPathHops)).flatMap (walkFrom ix maxVisits)
    let done := (walkTops ix visit maxVisits tops rest walk).quiet
    (walk.visited + calls.length ≤ maxVisits → done.outcome = some true ∧ done.state = visitAll visit walk.state calls) ∧
      (maxVisits < walk.visited + calls.length → done.outcome = some false) := by
  induction rest generalizing walk with
  | nil => exact ⟨fun _ => ⟨rfl, rfl⟩, fun many => absurd room (Nat.not_le_of_lt many)⟩
  | cons top rest ih =>
    rw [walkTops]
    simp only [quiet_bind, Watch.quiet_tick, Bool.false_eq_true, if_false, quiet_ite]
    by_cases starts : walkStartsAt ix tops maxPathHops top = true
    · rw [if_pos starts, filter_cons_of_pos starts, flatMap_cons, length_append]
      obtain ⟨all, many⟩ := quiet_walkBelow visit (walkFrom ix maxVisits top)
        ⟨walk.state, walk.watch.tick.quiet.2, walk.visited, walk.outcome⟩ open_ room
      dsimp only at all many
      by_cases few : walk.visited + (walkFrom ix maxVisits top).length ≤ maxVisits
      · obtain ⟨watch, below⟩ := all few
        rw [walkFrom] at below
        rw [below]
        simp only [isSome_none, Bool.false_eq_true, if_false]
        obtain ⟨allAfter, manyAfter⟩ := ih ⟨visitAll visit walk.state (walkFrom ix maxVisits top), watch,
          walk.visited + (walkFrom ix maxVisits top).length, none⟩ rfl few
        dsimp only at allAfter manyAfter
        rw [Nat.add_assoc] at allAfter manyAfter
        refine ⟨fun fits => ?_, manyAfter⟩
        obtain ⟨outcome, state⟩ := allAfter fits
        exact ⟨outcome, state.trans (foldl_append).symm⟩
      · have failed := many (Nat.lt_of_not_le few)
        rw [walkFrom] at failed
        rw [failed]
        exact ⟨fun fits => absurd (show walk.visited + (walkFrom ix maxVisits top).length ≤ maxVisits by omega) few, fun _ => failed⟩
    · rw [if_neg starts, filter_cons_of_neg starts]
      exact ih ⟨walk.state, walk.watch.tick.quiet.2, walk.visited, walk.outcome⟩ open_ room

def callsFor (ix : VolumeIndex) (maxVisits : Nat) (tops : List EntryIdx) : List EntryIdx :=
  (tops.filter (walkStartsAt ix tops maxPathHops)).flatMap (walkFrom ix maxVisits)

theorem quiet_walkBelowNames (piece : Bytes) (start : σ) :
    ((bearers ix piece maxVisits).1 ≤ maxVisits ∧ (callsFor ix maxVisits (topsFor ix piece maxVisits)).length ≤ maxVisits →
      (walkBelowNames ix piece maxVisits visit start).quiet =
        (true, visitAll visit start (callsFor ix maxVisits (topsFor ix piece maxVisits)))) ∧
    ((walkBelowNames ix piece maxVisits visit start).quiet.1 = true →
      (bearers ix piece maxVisits).1 ≤ maxVisits ∧ (callsFor ix maxVisits (topsFor ix piece maxVisits)).length ≤ maxVisits) := by
  unfold walkBelowNames
  rw [quiet_ite]
  obtain ⟨all, many⟩ := @quiet_walkTops σ ix maxVisits visit (topsFor ix piece maxVisits) (topsFor ix piece maxVisits)
    ⟨start, Watch.new, 0, none⟩ rfl (Nat.zero_le maxVisits)
  dsimp only at all many
  rw [Nat.zero_add] at all many
  by_cases bearing : (bearers ix piece maxVisits).1 > maxVisits
  · rw [if_pos bearing]
    exact ⟨fun few => absurd few.1 (Nat.not_le_of_gt bearing), nofun⟩
  · rw [if_neg bearing, quiet_bind, quiet_pure]
    constructor
    · intro few
      obtain ⟨outcome, state⟩ := all few.2
      simp only [topsFor] at outcome
      exact Prod.ext (by simp [outcome]) state
    · intro done
      refine ⟨Nat.le_of_not_gt bearing, Nat.le_of_not_lt fun over_ => ?_⟩
      have failed := many over_
      simp only [topsFor] at failed
      simp [failed] at done

end Visits

section Coverage

variable [Externals] {ix : VolumeIndex} {maxVisits : Nat} {tops : List EntryIdx} {t e : EntryIdx}

theorem walkFrom_eq (ok : ix.Integrity) (starts : Starts ix tops maxPathHops t) (short : (walkFrom ix maxVisits t).length ≤ maxVisits) :
    ∃ levels, walkFrom ix maxVisits t = preorder ix.children (levels + 1) t ∧ ∀ k x, Under ix t k x → k ≤ levels := by
  obtain ⟨n, -, last, way, end_, -⟩ := starts.way
  obtain ⟨levels, deep, entries⟩ := subtreeEntries_eq ok way end_
  refine ⟨levels, ?_, deep⟩
  rw [walkFrom, length_cons, entries, length_take] at short
  rw [walkFrom, preorder, entries, take_of_length_le (by omega)]

variable (ok : ix.Integrity) (live : ∀ t ∈ tops, ix.Live t) (few : (callsFor ix maxVisits tops).length ≤ maxVisits)
include ok live few

theorem mem_started (mem : t ∈ tops.filter (walkStartsAt ix tops maxPathHops)) :
    ix.Live t ∧ t ∈ tops ∧ Starts ix tops maxPathHops t ∧ ∃ levels, walkFrom ix maxVisits t = preorder ix.children (levels + 1) t ∧
      ∀ k x, Under ix t k x → k ≤ levels := by
  obtain ⟨inside, starts⟩ := mem_filter.mp mem
  have starts := walkStartsAt_iff.mp starts
  refine ⟨live t inside, inside, starts, walkFrom_eq ok starts (Nat.le_trans ?_ few)⟩
  rw [callsFor, length_flatMap]
  exact single_le_sum (by simp) _ (mem_map_of_mem mem)

theorem nodup_callsFor (distinct : tops.Nodup) : (callsFor ix maxVisits tops).Nodup := by
  have forest := forest_of_integrity ok
  refine nodup_flatMap.mpr ⟨fun t mem => ?_, (distinct.filter _).imp_of_mem fun {a b} inA inB differ x atA atB => ?_⟩
  · obtain ⟨there, -, starts, levels, whole, -⟩ := mem_started ok live few mem
    obtain ⟨n, -, last, way, end_, -⟩ := starts.way
    rw [whole]
    exact forest.nodup_preorder there way end_
  · obtain ⟨liveA, topA, startsA, levelsA, wholeA, -⟩ := mem_started ok live few inA
    obtain ⟨liveB, topB, startsB, levelsB, wholeB, -⟩ := mem_started ok live few inB
    rw [wholeA, forest.mem_preorder liveA] at atA
    rw [wholeB, forest.mem_preorder liveB] at atB
    obtain ⟨-, j, -, wayA⟩ := atA
    obtain ⟨-, k, -, wayB⟩ := atB
    -- of two tops above one entry the lower one starts no walk
    have lower {s t : EntryIdx} {j k : Nat} (starts : Starts ix tops maxPathHops s) (top : t ∈ tops)
        (wayS : ascend ix.entries.parent j x = some s) (wayT : ascend ix.entries.parent k x = some t) : ¬ j < k := by
      intro lt
      obtain ⟨mid, here, rest⟩ := ascend_prior lt.le wayT
      obtain rfl : s = mid := some.inj (wayS.symm.trans here)
      obtain ⟨i, split⟩ : ∃ i, k - j = i + 1 := ⟨k - j - 1, by omega⟩
      rw [split] at rest
      exact starts.alone i t rest top
    have first := lower startsA topB wayA wayB
    have second := lower startsB topA wayB wayA
    obtain rfl : j = k := by omega
    exact differ (some.inj (wayA.symm.trans wayB))

theorem mem_callsFor (shown : (ix.pathOf e []).1 = .ok) {k : Nat} (way : ascend ix.entries.parent k e = some t) (top : t ∈ tops) :
    e ∈ callsFor ix maxVisits tops := by
  classical
  obtain ⟨eLive, last, ⟨⟨n, lt, up⟩, end_⟩, notLost⟩ := pathOf_ok shown
  have bounded : ∀ j, (∃ s ∈ tops, ascend ix.entries.parent j e = some s) → j ≤ n := by
    rintro j ⟨s, -, at_⟩
    exact le_of_top up end_ at_
  set highest := Nat.findGreatest (fun j => ∃ s ∈ tops, ascend ix.entries.parent j e = some s) n
  obtain ⟨s, inside, at_⟩ : ∃ s ∈ tops, ascend ix.entries.parent highest e = some s :=
    Nat.findGreatest_spec (P := fun j => ∃ s ∈ tops, ascend ix.entries.parent j e = some s)
      (bounded k ⟨t, top, way⟩) ⟨t, top, way⟩
  have starts : Starts ix tops maxPathHops s := by
    constructor
    · obtain ⟨mid, here, rest⟩ := ascend_prior (bounded highest ⟨s, inside, at_⟩) up
      obtain rfl : s = mid := some.inj (at_.symm.trans here)
      exact ⟨n - highest, by omega, last, rest, end_, notLost⟩
    · intro j s' at' inside'
      have there : ascend ix.entries.parent (highest + (j + 1)) e = some s' := by rw [ascend_of_ascend at_, at']
      have higher := Nat.le_findGreatest (P := fun j => ∃ s ∈ tops, ascend ix.entries.parent j e = some s)
        (bounded _ ⟨s', inside', there⟩) ⟨s', inside', there⟩
      omega
  have mem : s ∈ tops.filter (walkStartsAt ix tops maxPathHops) := mem_filter.mpr ⟨inside, walkStartsAt_iff.mpr starts⟩
  obtain ⟨there, -, -, levels, whole, deep⟩ := mem_started ok live few mem
  refine mem_flatMap.mpr ⟨s, mem, ?_⟩
  rw [whole, (forest_of_integrity ok).mem_preorder there]
  exact ⟨eLive, highest, Nat.lt_succ_of_le (deep highest e ⟨eLive, at_⟩), at_⟩

end Coverage

variable [Externals] {ix : VolumeIndex}

def pathVisits (ix : VolumeIndex) (piece : Bytes) (maxVisits : Nat) : Bool × List EntryIdx :=
  (walkBelowNames ix piece maxVisits (fun calls idx => pure (calls ++ [idx])) []).quiet

omit [Externals] in
theorem visitAll_record (start entries : List EntryIdx) :
    visitAll (fun calls idx => pure (calls ++ [idx])) start entries = start ++ entries := by
  unfold visitAll
  induction entries generalizing start with
  | nil => simp
  | cons idx rest ih => rw [foldl_cons, quiet_pure, ih, append_assoc, singleton_append]

/-- A walk below names that comes to its end visits no entry twice, and every entry with a path that is, or is below, an
    entry whose folded name holds the piece. -/
theorem path_walk_covers (ok : ix.Integrity) {piece : Bytes} (nonempty : piece ≠ []) (plain : 0 ∉ piece)
    (maxVisits : Nat) {σ : Type} (visit : σ → EntryIdx → Asking σ) (start : σ)
    (done : (walkBelowNames ix piece maxVisits visit start).quiet.1 = true) :
    (walkBelowNames ix piece maxVisits visit start).quiet.2 = visitAll visit start (pathVisits ix piece maxVisits).2 ∧
      (pathVisits ix piece maxVisits).2.Nodup ∧
      ∀ e, (ix.pathOf e []).1 = .ok → ∀ k t, ascend ix.entries.parent k e = some t → piece <:+: ix.foldedName t →
        e ∈ (pathVisits ix piece maxVisits).2 := by
  obtain ⟨bearing, few⟩ := (quiet_walkBelowNames visit piece start).2 done
  obtain ⟨distinct, mem⟩ := tops_spec ok nonempty plain bearing
  have live : ∀ t ∈ topsFor ix piece maxVisits, ix.Live t := fun t member => ((mem t).mp member).1
  -- whoever watches, the same calls are made
  have calls : (pathVisits ix piece maxVisits).2 = callsFor ix maxVisits (topsFor ix piece maxVisits) := by
    rw [pathVisits, (quiet_walkBelowNames _ piece []).1 ⟨bearing, few⟩, visitAll_record, nil_append]
  rw [(quiet_walkBelowNames visit piece start).1 ⟨bearing, few⟩, calls]
  refine ⟨rfl, nodup_callsFor ok live few distinct, fun e shown k t way held => ?_⟩
  have eLive := (pathOf_ok shown).1
  exact mem_callsFor ok live few shown way ((mem t).mpr ⟨ok.ascend_live eLive way, held⟩)

omit [Externals] in
/-- The walk for `a` finds the folder of that name. -/
theorem folderIndex_walked :
    letI := Externals.ascii
    (pathVisits folderIndex [0x61] 1).1 = true ∧ (folderIndex.pathOf 2 []).1 = .ok ∧ 2 ∈ (pathVisits folderIndex [0x61] 1).2 := by
  let _ := Externals.ascii
  have done : (pathVisits folderIndex [0x61] 1).1 = true := by decide +kernel
  have shown : (folderIndex.pathOf 2 []).1 = .ok := by decide +kernel
  have held : ([0x61] : Bytes) <:+: folderIndex.foldedName 2 := by decide +kernel
  have walked := path_walk_covers reachable_folderIndex.invariant.integrity (show [0x61] ≠ [] by simp) (by decide) 1 _ _ done
  exact ⟨done, shown, walked.2.2 2 shown 0 2 rfl held⟩

end Goz.Query
