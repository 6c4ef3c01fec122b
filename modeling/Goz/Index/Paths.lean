import Goz.Index.Volume
import Goz.Library.Ascent

namespace Goz.VolumeIndex

open Ascent List Option

variable {ix : VolumeIndex} {e : EntryIdx} {top : EntryIdx} {k : Nat} {p : EntryIdx}

theorem pathChain_eq (hops : Nat) (e : EntryIdx) : ix.pathChain hops e = trail ix.entries.parent hops e := by
  induction hops generalizing e with
  | zero => rfl
  | succ hops ih =>
    cases above : ix.entries.parent e with
    | none => simp [pathChain, trail, above]
    | some p => simp [pathChain, trail, above, ih p]

/-- The way up from `e` ends at `top`, within the hops a path may have. -/
structure Tops (ix : VolumeIndex) (e top : EntryIdx) : Prop where
  way : ∃ k < maxPathHops, ascend ix.entries.parent k e = some top
  end_ : ix.entries.parent top = none

theorem Tops.pathOf (tops : ix.Tops e top) (live : ix.Live e) (out : Bytes) :
    ix.pathOf e out = (if top = ix.lostFound then .inLostFound else .ok,
      (trail ix.entries.parent maxPathHops e).reverse.foldl ix.pushComponent out) := by
  obtain ⟨⟨k, lt, at_⟩, end_⟩ := tops
  have alive : ix.entries.isTombstone e = false := live
  simp [VolumeIndex.pathOf, alive, pathChain_eq, trail_last at_ end_ lt, end_]

theorem pathOf_ok {out : Bytes} (ok : (ix.pathOf e out).1 = .ok) :
    ix.Live e ∧ ∃ top, ix.Tops e top ∧ top ≠ ix.lostFound := by
  unfold pathOf at ok
  split at ok
  case isTrue => cases ok
  case isFalse alive =>
    obtain ⟨k, lt, top, at_, last⟩ : ∃ k < maxPathHops, ∃ top, ascend ix.entries.parent k e = some top ∧
        (trail ix.entries.parent maxPathHops e).getLast? = some top := trail_getLast? e (by decide)
    simp only [pathChain_eq, last, getD_some] at ok
    split at ok
    case isTrue => cases ok
    case isFalse up =>
      refine ⟨by simpa [Live, EntryTable.Live] using alive, top, ⟨⟨k, lt, at_⟩, by simpa using up⟩, fun lost => ?_⟩
      simp [lost] at ok

theorem trail_child (at_ : ix.entries.parent e = some p)
    (above : ascend ix.entries.parent k p = some top) (end_ : ix.entries.parent top = none) (lt : k + 1 < maxPathHops) :
    trail ix.entries.parent maxPathHops e = e :: trail ix.entries.parent maxPathHops p := by
  have split : maxPathHops = (maxPathHops - 1) + 1 := rfl
  rw [split, trail, at_, ← split]
  simp only
  rw [trail_eq above end_ (show k < maxPathHops - 1 by omega) (show k < maxPathHops by omega)]

def joinPath (parentPath name : Bytes) : Bytes := (if parentPath.isEmpty then [] else parentPath ++ [0x5C]) ++ name

theorem pathOf_child (live : ix.Live e) (at_ : ix.entries.parent e = some p) (notRoot : e ≠ ix.root)
    (shallow : ∀ k top, ascend ix.entries.parent k e = some top → ix.entries.parent top = none → k < maxPathHops)
    (shown : (ix.pathOf p []).1 = .ok) : ix.pathOf e [] = (.ok, joinPath (ix.pathOf p []).2 (ix.rawName e)) := by
  obtain ⟨parentLive, top, tops, notLost⟩ := pathOf_ok shown
  obtain ⟨⟨k, lt, above⟩, end_⟩ := tops
  have way : ascend ix.entries.parent (k + 1) e = some top := by
    rw [ascend_succ, at_]
    exact above
  have bound := shallow (k + 1) top way end_
  have here : ix.Tops e top := ⟨⟨k + 1, bound, way⟩, end_⟩
  rw [here.pathOf live, if_neg notLost, trail_child at_ above end_ bound, (⟨⟨k, lt, above⟩, end_⟩ : ix.Tops p top).pathOf parentLive,
    reverse_cons, foldl_append, foldl_cons, foldl_nil]
  simp only [pushComponent, if_neg notRoot, joinPath]
  congr 2
  split
  case isTrue empty => exact isEmpty_iff.mp empty
  case isFalse => rfl

section Congr

variable {ix' : VolumeIndex}

/-- The way up from `e` is the same in both indexes, name for name. -/
structure SameWay (ix ix' : VolumeIndex) (e : EntryIdx) : Prop where
  root : ix'.root = ix.root
  lost : ix'.lostFound = ix.lostFound
  live : ix'.Live e ↔ ix.Live e
  parent : ∀ k x, ascend ix.entries.parent k e = some x → ix'.entries.parent x = ix.entries.parent x
  name : ∀ k x, ascend ix.entries.parent k e = some x → ix'.rawName x = ix.rawName x

theorem foldl_pushComponent_congr {chain : List EntryIdx} (root : ix'.root = ix.root)
    (names : ∀ x ∈ chain, ix'.rawName x = ix.rawName x) (out : Bytes) :
    chain.foldl ix'.pushComponent out = chain.foldl ix.pushComponent out := by
  refine foldl_ext _ _ _ fun before x mem => ?_
  rw [pushComponent, pushComponent, root, names x mem]

theorem SameWay.pathOf_eq (same : SameWay ix ix' e) (out : Bytes) : ix'.pathOf e out = ix.pathOf e out := by
  have tombstone : ix'.entries.isTombstone e = ix.entries.isTombstone e := by
    have live := same.live
    rw [Live, Live, EntryTable.Live, EntryTable.Live] at live
    cases at_ : ix.entries.isTombstone e <;> simpa [at_] using live
  have chain : trail ix'.entries.parent maxPathHops e = trail ix.entries.parent maxPathHops e :=
    trail_congr fun j _ => same.parent j
  have top : ix'.entries.parent ((trail ix.entries.parent maxPathHops e).getLast?.getD e) =
      ix.entries.parent ((trail ix.entries.parent maxPathHops e).getLast?.getD e) := by
    obtain ⟨k, -, top, at_, last⟩ : ∃ k < maxPathHops, ∃ top, ascend ix.entries.parent k e = some top ∧
        (trail ix.entries.parent maxPathHops e).getLast? = some top := trail_getLast? e (by decide)
    rw [last]
    exact same.parent k top at_
  have pushed : (trail ix.entries.parent maxPathHops e).reverse.foldl ix'.pushComponent out =
      (trail ix.entries.parent maxPathHops e).reverse.foldl ix.pushComponent out := by
    refine foldl_pushComponent_congr same.root (fun x mem => ?_) out
    obtain ⟨k, -, at_⟩ := mem_trail (mem_reverse.mp mem)
    exact same.name k x at_
  simp only [pathOf, tombstone, pathChain_eq, chain, top, same.lost, pushed]

end Congr

section Mirror

variable {ix' : VolumeIndex} {R : EntryIdx → EntryIdx → Prop}

/-- The entries of two indexes that `R` pairs are alike, and so are the folders above them. -/
structure Mirrors (ix ix' : VolumeIndex) (R : EntryIdx → EntryIdx → Prop) : Prop where
  live : ∀ e e', R e e' → ix.Live e ∧ ix'.Live e'
  up : ∀ e e', R e e' → Option.Rel R (ix.entries.parent e) (ix'.entries.parent e')
  lost : ∀ e e', R e e' → (e = ix.lostFound ↔ e' = ix'.lostFound)
  name : ∀ e e', R e e' → e ≠ ix.lostFound → ix'.rawName e' = ix.rawName e

theorem Mirrors.pathOf {e' : EntryIdx} (mirrors : Mirrors ix ix' R) (lostTop : ix.entries.parent ix.lostFound = none)
    (paired : R e e') (out : Bytes) :
    (ix'.pathOf e' out).1 = (ix.pathOf e out).1 ∧
      ((ix.pathOf e out).1 = .ok → (∀ x x', R x x' → (x = ix.root ↔ x' = ix'.root)) → ix'.pathOf e' out = ix.pathOf e out) := by
  have ways := trail_related mirrors.up maxPathHops paired
  obtain ⟨live, live'⟩ := mirrors.live e e' paired
  have alive : ix.entries.isTombstone e = false := live
  have alive' : ix'.entries.isTombstone e' = false := live'
  have tops : R ((trail ix.entries.parent maxPathHops e).getLast?.getD e)
      ((trail ix'.entries.parent maxPathHops e').getLast?.getD e') := by
    have back := rel_reverse ways
    rw [List.getLast?_eq_head?_reverse, List.getLast?_eq_head?_reverse]
    revert back
    cases (trail ix.entries.parent maxPathHops e).reverse <;> cases (trail ix'.entries.parent maxPathHops e').reverse
    · exact fun _ => paired
    · exact nofun
    · exact nofun
    · rintro (_ | ⟨first, _⟩)
      exact first
  have ends : (ix'.entries.parent ((trail ix'.entries.parent maxPathHops e').getLast?.getD e')).isSome =
      (ix.entries.parent ((trail ix.entries.parent maxPathHops e).getLast?.getD e)).isSome := by
    have above := mirrors.up _ _ tops
    revert above
    generalize ix.entries.parent _ = a, ix'.entries.parent _ = b
    rintro (_ | _) <;> rfl
  have status : (ix'.pathOf e' out).1 = (ix.pathOf e out).1 := by
    simp only [VolumeIndex.pathOf, alive, alive', pathChain_eq, ends, mirrors.lost _ _ tops]
    split
    · rfl
    · split <;> rfl
  refine ⟨status, fun ok roots => Prod.ext status ?_⟩
  obtain ⟨-, top, reached, notLost⟩ := pathOf_ok ok
  have reached' : (ix'.pathOf e' out).1 = .ok := status.trans ok
  obtain ⟨-, top', topped', -⟩ := pathOf_ok reached'
  rw [reached.pathOf live, topped'.pathOf live']
  -- a way that ends elsewhere does not pass lost+found
  have proper : ∀ x ∈ trail ix.entries.parent maxPathHops e, x ≠ ix.lostFound := by
    rintro x mem rfl
    obtain ⟨k, -, at_⟩ := mem_trail mem
    obtain ⟨⟨n, -, way⟩, end_⟩ := reached
    have same : k = n := (le_of_top way end_ at_).antisymm (le_of_top at_ lostTop way)
    rw [← same, at_] at way
    exact notLost (some.inj way).symm
  have named := rel_reverse ((forall₂_and_left _ _).mpr ⟨proper, ways⟩)
  refine (rel_foldl (P := Eq) ?_ rfl named).symm
  rintro before _ rfl x x' ⟨away, pair⟩
  simp only [pushComponent, mirrors.name x x' pair away, roots x x' pair]

end Mirror

theorem Tops.pathOf_below {folder : EntryIdx} {n : Nat} (at_ : ascend ix.entries.parent k e = some folder)
    (above : ascend ix.entries.parent n folder = some top) (end_ : ix.entries.parent top = none) (bound : k + n < maxPathHops)
    (live : ix.Live e) (folderLive : ix.Live folder) :
    ix.pathOf e [] = ((ix.pathOf folder []).1,
      (trail ix.entries.parent k e).reverse.foldl ix.pushComponent (ix.pathOf folder []).2) := by
  have way : ascend ix.entries.parent (k + n) e = some top := by rw [ascend_of_ascend at_, above]
  have here : ix.Tops e top := ⟨⟨k + n, bound, way⟩, end_⟩
  have there : ix.Tops folder top := ⟨⟨n, by omega, above⟩, end_⟩
  have split : trail ix.entries.parent maxPathHops e =
      trail ix.entries.parent k e ++ trail ix.entries.parent maxPathHops folder := by
    rw [trail_eq above end_ (show n < maxPathHops by omega) (show n < maxPathHops - k by omega), ← trail_add at_,
      Nat.add_sub_cancel' (by omega)]
  rw [here.pathOf live, there.pathOf folderLive, split, reverse_append, foldl_append]

theorem pathOf_too_deep (at_ : ascend ix.entries.parent k e = some top)
    (deep : maxPathHops ≤ k) (live : ix.Live e) (out : Bytes) : ix.pathOf e out = (.cycleDetected, out) := by
  obtain ⟨j, lt, last, reached, lastAt⟩ : ∃ j < maxPathHops, ∃ last, ascend ix.entries.parent j e = some last ∧
      (trail ix.entries.parent maxPathHops e).getLast? = some last := trail_getLast? e (by decide)
  have alive : ix.entries.isTombstone e = false := live
  -- the walk stops below `top`, so there is a parent left
  have more : ∃ p, ix.entries.parent last = some p := by
    obtain ⟨mid, first, rest⟩ := ascend_prior (show j ≤ k by omega) at_
    obtain rfl : last = mid := some.inj (reached.symm.trans first)
    rw [show k - j = (k - j - 1) + 1 by omega, ascend_succ] at rest
    obtain ⟨p, up, -⟩ := bind_eq_some_iff.mp rest
    exact ⟨p, up⟩
  obtain ⟨p, up⟩ := more
  simp [pathOf, alive, pathChain_eq, lastAt, up]

theorem foldl_pushComponent_append (below : List EntryIdx) :
    ∃ rest : Bytes, ∀ path : Bytes, path ≠ [] → below.foldl ix.pushComponent path = path ++ rest := by
  induction below with
  | nil => exact ⟨[], fun path _ => by simp⟩
  | cons x below ih =>
    obtain ⟨rest, ih⟩ := ih
    by_cases root : x = ix.root
    · refine ⟨rest, fun path some_ => ?_⟩
      rw [foldl_cons, pushComponent, if_pos root, ih path some_]
    · refine ⟨[0x5C] ++ ix.rawName x ++ rest, fun path some_ => ?_⟩
      have pushed : ix.pushComponent path x = path ++ ([0x5C] ++ ix.rawName x) := by
        simp [pushComponent, root, some_]
      rw [foldl_cons, pushed, ih _ (by simp)]
      simp

end Goz.VolumeIndex
