import Goz.Index.Moves
import Goz.Query.Scan

namespace Goz.Query

open Ascent VolumeIndex List Option Externals

variable {ix : VolumeIndex} {scope : EntryIdx} {memo : EntryIdx → Option Bool}
  {e cur x : EntryIdx} {hops : Nat} {chain : List EntryIdx} {top p : EntryIdx} {n : Nat}

def Below (ix : VolumeIndex) (scope e : EntryIdx) : Prop := ∃ k, ascend ix.entries.parent (k + 1) e = some scope

def scopeAnswers (ix : VolumeIndex) (scope : EntryIdx) : (EntryIdx → Option Bool) → List EntryIdx → List Bool
  | _, [] => []
  | memo, e :: rest =>
    let tested := inScope ix e scope memo
    tested.1 :: scopeAnswers ix scope tested.2 rest

def WithinReach (ix : VolumeIndex) (scope : EntryIdx) : Prop :=
  ∀ e d, ix.Live e → ascend ix.entries.parent d e = some scope → d ≤ 4096

theorem below_of_parent (at_ : ix.entries.parent e = some p) (above : p = scope ∨ Below ix scope p) :
    Below ix scope e := by
  rcases above with rfl | ⟨k, way⟩
  · exact ⟨0, (ascend_one e).trans at_⟩
  · refine ⟨k + 1, ?_⟩
    rw [ascend_succ, at_]
    exact way

theorem parent_of_below (at_ : ix.entries.parent e = some p) (below : Below ix scope e) :
    p = scope ∨ Below ix scope p := by
  obtain ⟨k, way⟩ := below
  rw [ascend_succ, at_, bind_some] at way
  cases k with
  | zero => exact .inl (some.inj way)
  | succ k => exact .inr ⟨k, way⟩

/-- What the memo says is so; what it denies is so if no climb is given up. -/
structure Remembers (ix : VolumeIndex) (scope : EntryIdx) (memo : EntryIdx → Option Bool) : Prop where
  inside : ∀ e, memo e = some true → Below ix scope e
  outside : WithinReach ix scope → ∀ e, memo e = some false → ¬ Below ix scope e

theorem scopeWalk_cases (hops : Nat) (cur : EntryIdx) (chain : List EntryIdx) :
    cur = scope ∧ scopeWalk ix scope memo hops cur chain = (true, chain) ∨
    cur ≠ scope ∧ ((∃ verdict, memo cur = some verdict ∧ scopeWalk ix scope memo hops cur chain = (verdict, chain)) ∨
      ix.entries.parent cur = none ∧ scopeWalk ix scope memo hops cur chain = (false, chain) ∨
      hops = 0 ∧ scopeWalk ix scope memo hops cur chain = (false, cur :: chain) ∨
      ∃ parent fewer, ix.entries.parent cur = some parent ∧ hops = fewer + 1 ∧
        scopeWalk ix scope memo hops cur chain = scopeWalk ix scope memo fewer parent (cur :: chain)) := by
  rw [scopeWalk.eq_def]
  dsimp only
  by_cases here : cur = scope
  · exact .inl ⟨here, if_pos here⟩
  · refine .inr ⟨here, ?_⟩
    rw [if_neg here]
    cases known : memo cur with
    | some verdict => exact .inl ⟨verdict, rfl, rfl⟩
    | none =>
      cases up : ix.entries.parent cur with
      | none => exact .inr (.inl ⟨rfl, rfl⟩)
      | some parent =>
        cases hops with
        | zero => exact .inr (.inr (.inl ⟨rfl, rfl⟩))
        | succ fewer => exact .inr (.inr (.inr ⟨parent, fewer, rfl, rfl, rfl⟩))

variable (remembers : Remembers ix scope memo)
include remembers

theorem Remembers.walk_inside (found : (scopeWalk ix scope memo hops cur chain).1 = true) :
    (cur = scope ∨ Below ix scope cur) ∧ ∀ c ∈ (scopeWalk ix scope memo hops cur chain).2, c ∈ chain ∨ Below ix scope c := by
  induction hops using Nat.strong_induction_on generalizing cur chain with
  | _ hops ih =>
    obtain ⟨here, walked⟩ | ⟨-, ⟨verdict, known, walked⟩ | ⟨-, walked⟩ | ⟨-, walked⟩ | ⟨parent, fewer, up, rfl, walked⟩⟩ :=
      @scopeWalk_cases ix scope memo hops cur chain
    all_goals rw [walked] at found ⊢
    · exact ⟨.inl here, fun c mem => .inl mem⟩
    · obtain rfl : verdict = true := found
      exact ⟨.inr (remembers.inside cur known), fun c mem => .inl mem⟩
    · cases found
    · cases found
    · obtain ⟨above, passed⟩ := ih fewer (Nat.lt_succ_self fewer) found
      have here := below_of_parent up above
      refine ⟨.inr here, fun c mem => ?_⟩
      rcases passed c mem with inChain | below
      · rcases mem_cons.mp inChain with rfl | older
        · exact .inr here
        · exact .inl older
      · exact .inr below

theorem Remembers.walk_outside (reach : WithinReach ix scope) (near : ∀ d, ascend ix.entries.parent d cur = some scope → d ≤ hops)
    (failed : (scopeWalk ix scope memo hops cur chain).1 = false) :
    (cur ≠ scope ∧ ¬ Below ix scope cur) ∧
      ∀ c ∈ (scopeWalk ix scope memo hops cur chain).2, c ∈ chain ∨ ¬ Below ix scope c := by
  induction hops using Nat.strong_induction_on generalizing cur chain with
  | _ hops ih =>
    obtain ⟨-, walked⟩ | ⟨away, ⟨verdict, known, walked⟩ | ⟨up, walked⟩ | ⟨rfl, walked⟩ | ⟨parent, fewer, up, rfl, walked⟩⟩ :=
      @scopeWalk_cases ix scope memo hops cur chain
    all_goals rw [walked] at failed ⊢
    · cases failed
    · obtain rfl : verdict = false := failed
      exact ⟨⟨away, remembers.outside reach cur known⟩, fun c mem => .inl mem⟩
    · have top : ¬ Below ix scope cur := by
        rintro ⟨k, way⟩
        rw [ascend_succ, up] at way
        cases way
      exact ⟨⟨away, top⟩, fun c mem => .inl mem⟩
    · have beyond : ¬ Below ix scope cur := fun ⟨k, way⟩ => absurd (near _ way) (by simp)
      refine ⟨⟨away, beyond⟩, fun c mem => ?_⟩
      rcases mem_cons.mp mem with rfl | older
      · exact .inr beyond
      · exact .inl older
    · have nearer : ∀ d, ascend ix.entries.parent d parent = some scope → d ≤ fewer := by
        intro d way
        have further : ascend ix.entries.parent (d + 1) cur = some scope := by
          rw [ascend_succ, up]
          exact way
        exact Nat.le_of_succ_le_succ (near _ further)
      obtain ⟨⟨notScope, notBelow⟩, passed⟩ := ih fewer (Nat.lt_succ_self fewer) nearer failed
      have here : ¬ Below ix scope cur := fun below => (parent_of_below up below).elim notScope notBelow
      refine ⟨⟨away, here⟩, fun c mem => ?_⟩
      rcases passed c mem with inChain | below
      · rcases mem_cons.mp inChain with rfl | older
        · exact .inr here
        · exact .inl older
      · exact .inr below

theorem Remembers.inScope (live : ix.Live e) :
    Remembers ix scope (inScope ix e scope memo).2 ∧ ((inScope ix e scope memo).1 = true → Below ix scope e) ∧
      (WithinReach ix scope → e ≠ scope → (inScope ix e scope memo).1 = false → ¬ Below ix scope e) := by
  unfold Query.inScope
  split
  case isTrue same => exact ⟨remembers, by simp, fun _ away => absurd same away⟩
  case isFalse away =>
    set walked := scopeWalk ix scope memo 4096 e [] with walking
    refine ⟨⟨fun c said => ?_, fun reach c said => ?_⟩, fun found => ?_, fun reach _ failed => ?_⟩
    · dsimp only at said
      split at said
      case isTrue mem =>
        exact ((remembers.walk_inside (some.inj said)).2 c mem).resolve_left (by simp)
      case isFalse => exact remembers.inside c said
    · dsimp only at said
      split at said
      case isTrue mem =>
        exact ((remembers.walk_outside reach (fun d => reach e d live) (some.inj said)).2 c mem).resolve_left (by simp)
      case isFalse => exact remembers.outside reach c said
    · exact (remembers.walk_inside found).1.resolve_left away
    · exact (remembers.walk_outside reach (fun d => reach e d live) failed).1.2

omit remembers

theorem scopeWalk_gives_up (chain : List EntryIdx)
    (away : ∀ i ≤ hops, ascend ix.entries.parent i cur ≠ some scope) (long : ascend ix.entries.parent (hops + 1) cur ≠ none) :
    (scopeWalk ix scope (fun _ => none) hops cur chain).1 = false ∧
      (∀ c ∈ chain, c ∈ (scopeWalk ix scope (fun _ => none) hops cur chain).2) ∧
      ∀ i ≤ hops, ∀ c, ascend ix.entries.parent i cur = some c → c ∈ (scopeWalk ix scope (fun _ => none) hops cur chain).2 := by
  have notScope : cur ≠ scope := fun here => away 0 (Nat.zero_le _) (congrArg some here)
  induction hops generalizing cur chain with
  | zero =>
    cases up : ix.entries.parent cur with
    | none => simp [ascend_succ, up] at long
    | some parent =>
      have walked : scopeWalk ix scope (fun _ => none) 0 cur chain = (false, cur :: chain) := by
        simp [scopeWalk, notScope, up]
      rw [walked]
      refine ⟨rfl, fun c mem => mem_cons_of_mem _ mem, fun i le c at_ => ?_⟩
      obtain rfl := Nat.le_zero.mp le
      obtain rfl := some.inj at_
      exact mem_cons_self
  | succ hops ih =>
    cases up : ix.entries.parent cur with
    | none => simp [ascend_succ, up] at long
    | some parent =>
      have walked : scopeWalk ix scope (fun _ => none) (hops + 1) cur chain =
          scopeWalk ix scope (fun _ => none) hops parent (cur :: chain) := by
        rw [scopeWalk.eq_def]
        simp [notScope, up]
      have higher (i : Nat) : ascend ix.entries.parent (i + 1) cur = ascend ix.entries.parent i parent := by
        rw [ascend_succ, up]
        rfl
      rw [walked]
      obtain ⟨failed, older, passed⟩ := ih (cur :: chain) (fun i le => higher i ▸ away (i + 1) (Nat.succ_le_succ le))
        (by rwa [← higher]) fun here => away 1 (by omega) (by rw [higher]; exact congrArg some here)
      refine ⟨failed, fun c mem => older c (mem_cons_of_mem _ mem), fun i le c at_ => ?_⟩
      cases i with
      | zero =>
        obtain rfl := some.inj at_
        exact older _ mem_cons_self
      | succ i =>
        rw [higher] at at_
        exact passed i (Nat.le_of_succ_le_succ le) c at_

theorem not_below_self (way : ascend ix.entries.parent n scope = some top)
    (end_ : ix.entries.parent top = none) : ¬ Below ix scope scope := by
  rintro ⟨k, cycle⟩
  obtain ⟨above, up⟩ := up_of_cycle (Nat.succ_pos k) cycle way
  rw [end_] at up
  cases up

theorem scopeAnswers_poisoned (at_ : ascend ix.entries.parent 4096 e = some x)
    (up : ix.entries.parent x = some scope) (way : ascend ix.entries.parent n scope = some top)
    (end_ : ix.entries.parent top = none) : scopeAnswers ix scope (fun _ => none) [e, x] = [false, false] := by
  have reached : ascend ix.entries.parent 4097 e = some scope := by
    rw [show 4097 = 4096 + 1 from rfl, ascend_of_ascend at_, ascend_one, up]
  have away : ∀ i ≤ 4096, ascend ix.entries.parent i e ≠ some scope := by
    intro i le early
    obtain ⟨mid, here, rest⟩ := ascend_prior (show i ≤ 4097 by omega) reached
    obtain rfl : mid = scope := some.inj (here.symm.trans early)
    refine not_below_self way end_ ⟨4096 - i, ?_⟩
    rw [show 4096 - i + 1 = 4097 - i by omega]
    exact rest
  have notScope : e ≠ scope := fun same => away 0 (by omega) (congrArg some same)
  have xApart : x ≠ scope := fun same => away 4096 le_rfl (at_.trans (congrArg some same))
  obtain ⟨failed, -, passed⟩ := scopeWalk_gives_up [] away (by rw [reached]; simp)
  have held := passed 4096 le_rfl x at_
  have first : (inScope ix e scope fun _ => none).1 = false := by
    rw [inScope, if_neg notScope]
    exact failed
  have memo : (inScope ix e scope fun _ => none).2 x = some false := by
    rw [inScope, if_neg notScope]
    dsimp only
    rw [if_pos held, failed]
  have second : (inScope ix x scope (inScope ix e scope fun _ => none).2).1 = false := by
    have known : (scopeWalk ix scope (inScope ix e scope fun _ => none).2 4096 x []).1 = false := by
      rw [scopeWalk.eq_def]
      simp [xApart, memo]
    rw [inScope.eq_def ix x, if_neg xApart]
    exact known
  rw [scopeAnswers, scopeAnswers, scopeAnswers, first, second]

theorem scopeAnswers_child (up : ix.entries.parent x = some scope) (apart : x ≠ scope) :
    scopeAnswers ix scope (fun _ => none) [x] = [true] := by
  have walked (hops : Nat) : (scopeWalk ix scope (fun _ => none) (hops + 1) x []).1 = true := by
    rw [scopeWalk.eq_def]
    simp only [if_neg apart, up]
    rw [scopeWalk.eq_def]
    simp
  have found : (inScope ix x scope fun _ => none).1 = true := by
    rw [inScope, if_neg apart]
    exact walked 4095
  rw [scopeAnswers, scopeAnswers, found]

variable [Externals]

theorem pathOf_above {k : Nat} (ok : ix.Integrity) (shown : (ix.pathOf e []).1 = .ok)
    (way : ascend ix.entries.parent k e = some x) :
    ∃ n top, ascend ix.entries.parent n x = some top ∧ ix.entries.parent top = none ∧ k + n < maxPathHops ∧
      top ≠ ix.lostFound ∧ ix.Live x := by
  obtain ⟨live, top, ⟨⟨n, lt, up⟩, end_⟩, notLost⟩ := pathOf_ok shown
  have le := le_of_top up end_ way
  obtain ⟨mid, here, rest⟩ := ascend_prior le up
  obtain rfl : x = mid := some.inj (way.symm.trans here)
  exact ⟨n - k, top, rest, end_, by omega, notLost, ok.ascend_live live way⟩

/-- Scope tests answer alike whatever was asked before, exactly if no entry lies so far below the scope that the climb from
    it is given up, or nothing in the scope has a path. -/
theorem scope_tests_forget {rootFrn : Frn} (reachable : Reachable rootFrn ix) (scope : EntryIdx) :
    (∀ asked : List EntryIdx, (∀ e ∈ asked, ix.Live e) →
      Forall₂ (fun e answer => (ix.pathOf e []).1 = .ok → (answer = true ↔ Below ix scope e)) asked
        (scopeAnswers ix scope (fun _ => none) asked)) ↔
      (WithinReach ix scope ∨ ∀ e, (ix.pathOf e []).1 = .ok → ¬ Below ix scope e) := by
  have ok := reachable.invariant.integrity
  constructor
  · intro right
    by_contra! bad
    obtain ⟨far, x₀, shown, k, below⟩ := bad
    unfold WithinReach at far
    push Not at far
    obtain ⟨deep, d, live, way, beyond⟩ := far
    obtain ⟨n, top, up, end_, short, notLost, -⟩ := pathOf_above ok shown below
    -- the entry just far enough below, and the folder above it in the scope
    obtain ⟨e, first, rest⟩ := ascend_prior (show d - 4097 ≤ d by omega) way
    rw [show d - (d - 4097) = 4096 + 1 by omega] at rest
    obtain ⟨x, at_, parent⟩ := ascend_last rest
    have eLive := ok.ascend_live live first
    have xLive := ok.ascend_live eLive at_
    have placed : ix.Tops x top := by
      refine ⟨⟨n + 1, by omega, ?_⟩, end_⟩
      rw [ascend_succ, parent]
      exact up
    have xShown : (ix.pathOf x []).1 = .ok := by rw [placed.pathOf xLive, if_neg notLost]
    have answers := right [e, x] (by simp [eLive, xLive])
    rw [scopeAnswers_poisoned at_ parent up end_] at answers
    obtain ⟨-, answers⟩ := forall₂_cons.mp answers
    obtain ⟨answer, -⟩ := forall₂_cons.mp answers
    exact absurd ((answer xShown).mpr ⟨0, (ascend_one x).trans parent⟩) nofun
  · intro safe asked live
    suffices ∀ memo, Remembers ix scope memo → Forall₂
        (fun e answer => (ix.pathOf e []).1 = .ok → (answer = true ↔ Below ix scope e)) asked (scopeAnswers ix scope memo asked) from
      this _ ⟨nofun, fun _ => nofun⟩
    induction asked with
    | nil => exact fun _ _ => .nil
    | cons e rest ih =>
      intro memo remembers
      obtain ⟨after, inside, outside⟩ := remembers.inScope (live e mem_cons_self)
      refine .cons (fun shown => ⟨inside, fun below => ?_⟩) (ih (fun x mem => live x (mem_cons_of_mem _ mem)) _ after)
      have reach := safe.resolve_right fun none_ => none_ e shown below
      by_contra denied
      have away : e ≠ scope := by
        rintro rfl
        obtain ⟨n, top, up, end_, -⟩ := pathOf_above ok shown (ascend_zero e)
        exact not_below_self up end_ below
      exact outside reach away (Bool.eq_false_iff.mpr denied) below

omit [Externals] in
/-- The folder `a` is in the root. -/
theorem folderIndex_in_scope :
    letI := ascii
    WithinReach folderIndex 0 ∧ (folderIndex.pathOf 2 []).1 = .ok ∧
      Forall₂ (fun e answer => (folderIndex.pathOf e []).1 = .ok → (answer = true ↔ Below folderIndex 0 e)) [0, 2]
        (scopeAnswers folderIndex 0 (fun _ => none) [0, 2]) := by
  let _ := ascii
  have slots := reachable_folderIndex.invariant.integrity.slots
  have reach : WithinReach folderIndex 0 := by
    intro e d live way
    have small : e < 3 := slots.live_lt e live
    obtain ⟨k, top, le, end_, at_⟩ : ∃ k top, k ≤ 1 ∧ folderIndex.entries.parent top = none ∧
        ascend folderIndex.entries.parent k e = some top := by
      match e, small with
      | 0, _ => exact ⟨0, 0, by decide, by decide, rfl⟩
      | 1, _ => exact ⟨0, 1, by decide, by decide, rfl⟩
      | 2, _ => exact ⟨1, 0, by decide, by decide, by decide⟩
    exact (le_of_top at_ end_ way).trans (le.trans (by decide))
  refine ⟨reach, by decide +kernel, (scope_tests_forget reachable_folderIndex 0).mpr (.inl reach) [0, 2] ?_⟩
  show ∀ e ∈ [0, 2], folderIndex.entries.isTombstone e = false
  decide

omit [Externals] in
/-- A folder asked about after an entry 4096 levels below it is not found in the folder that holds it. -/
theorem nested_scope_poisoned :
    letI := ascii
    let ix := nested 4098
    ∃ scope x, ix.entries.parent scope = some ix.root ∧ ix.entries.parent x = some scope ∧
      ascend ix.entries.parent 4096 (nestSlot 4098) = some x ∧ Reachable ntfsRootFrn ix ∧ ix.Live (nestSlot 4098) ∧
      (ix.pathOf x []).1 = .ok ∧ Below ix scope x ∧
      scopeAnswers ix scope (fun _ => none) [x] = [true] ∧ scopeAnswers ix scope (fun _ => none) [nestSlot 4098, x] = [false, false] := by
  let _ := ascii
  intro ix
  have holds : Nested 4098 ix := nested_holds (by decide)
  have ok := holds.reachable.invariant.integrity
  have root : ix.root = 0 := holds.reachable.root_eq
  obtain ⟨x, at_, rest⟩ := ascend_prior (show 4096 ≤ 4098 by decide) holds.deep
  obtain ⟨scope, first, top⟩ := ascend_last (show ascend ix.entries.parent (1 + 1) x = some 0 from rest)
  have up : ix.entries.parent x = some scope := (ascend_one x).symm.trans first
  have live := ok.ascend_live holds.lastLive at_
  have shown : (ix.pathOf x []).1 = .ok := by
    have tops : ix.Tops x 0 := ⟨⟨2, by decide, rest⟩, holds.root⟩
    rw [tops.pathOf live, if_neg (root ▸ ok.apart)]
  refine ⟨scope, x, root ▸ top, up, at_, holds.reachable, holds.lastLive, shown, ⟨0, first⟩, ?_, ?_⟩
  · have apart : x ≠ scope := by
      rintro rfl
      exact not_below_self rest holds.root ⟨0, first⟩
    exact scopeAnswers_child up apart
  · exact scopeAnswers_poisoned at_ up ((ascend_one scope).trans top) holds.root

end Goz.Query
