import Goz.Index.Cycles
import Goz.Query.FolderNodes
import Goz.Query.FolderWalk

namespace Goz.Query.FolderRanks

open Ascent List Option Externals

variable [Externals] {ix : VolumeIndex} {fr : FolderRanks} {slots : List EntryIdx} {e : EntryIdx} {m : Nat}
  {names : List Bytes} {dirs : List EntryIdx} {k : Nat}

def ProperFolders (ix : VolumeIndex) : Prop :=
  ∀ e, ix.IsFolder e → e ≠ ix.root → ix.foldedName e ≠ [] ∧ 0x5C ∉ ix.foldedName e

variable (complete : Complete ix slots fr)
include complete

omit [Externals] in
theorem Complete.foldedOf (at_ : slots[m]? = some e) : fr.foldedOf ix m = ix.foldedName e := by
  rw [FolderRanks.foldedOf, complete.names, getD_eq_getElem?_getD, getElem?_map, at_]
  rfl

omit [Externals] in
theorem Complete.keyOf (at_ : slots[m]? = some e) :
    fr.keyOf ix m = ix.names.rankKey (ix.entries.nameId e) := by
  rw [FolderRanks.keyOf, complete.names, getD_eq_getElem?_getD, getElem?_map, at_]
  rfl

omit [Externals] in
theorem Complete.above {p : Nat} (at_ : fr.parent[m]? = some (some p)) :
    ∃ e up, slots[m]? = some e ∧ e ≠ ix.root ∧ ix.IsFolder e ∧ ix.entries.parent e = some up ∧ slots[p]? = some up := by
  have bound : m < slots.length := by
    rw [← complete.size]
    exact (List.getElem?_eq_some_iff.mp at_).1
  have here : slots[m]? = some slots[m] := getElem?_eq_getElem bound
  have attached := complete.attached _ m here
  unfold Attached at attached
  split at attached
  case isTrue =>
    rw [at_] at attached
    cases attached
  case isFalse notRoot =>
    have folder := (complete.folders _ (mem_of_getElem? here)).resolve_left notRoot
    cases above : ix.entries.parent slots[m] with
    | none =>
      rw [above, at_] at attached
      cases attached
    | some up =>
      rw [above] at attached
      obtain ⟨n, known, same⟩ := attached
      rw [at_] at same
      obtain rfl := some.inj (some.inj same)
      exact ⟨_, up, here, notRoot, folder, above, (complete.node up p).mp known⟩

theorem Complete.keysAgree (ok : ix.Integrity) (ordered : ix.names.Ordered) : fr.KeysAgree ix := by
  intro a b p q atA atB
  obtain ⟨x, -, hereA, -, folderA, -, -⟩ := complete.above atA
  obtain ⟨y, -, hereB, -, folderB, -, -⟩ := complete.above atB
  rw [complete.foldedOf hereA, complete.foldedOf hereB, complete.keyOf hereA, complete.keyOf hereB]
  have liveA := ok.name_live folderA.1
  have liveB := ok.name_live folderB.1
  exact ⟨ordered.rankKey_le liveA liveB, ordered.rankKey_eq liveA liveB⟩

theorem Complete.walkable (ok : ix.Integrity) (ordered : ix.names.Ordered)
    (proper : ProperFolders ix) : Walkable ix fr where
  bare := by
    have attached := complete.attached _ 0 complete.root
    rwa [Attached, if_pos rfl] at attached
  agree := complete.keysAgree ok ordered
  plain m p at_ := by
    obtain ⟨e, -, here, notRoot, folder, -, -⟩ := complete.above at_
    rw [complete.foldedOf here]
    exact (proper e folder notRoot).2
  named m p at_ := by
    obtain ⟨e, -, here, notRoot, folder, -, -⟩ := complete.above at_
    rw [complete.foldedOf here]
    exact (proper e folder notRoot).1

omit [Externals] in
theorem Complete.ascend_of_way (way : Way ix fr names m) (at_ : slots[m]? = some e) :
    ascend ix.entries.parent names.length e = some ix.root := by
  induction way generalizing e with
  | root =>
    rw [complete.root, Option.some.injEq] at at_
    rw [at_]
    rfl
  | child above below ih =>
    obtain ⟨e', up, here, -, -, parent, there⟩ := complete.above below
    obtain rfl : e' = e := some.inj (here.symm.trans at_)
    rw [length_append, length_singleton, ascend_succ, parent]
    exact ih there

omit complete

omit [Externals] in
theorem joined_concat (some_ : names ≠ []) (name : Bytes) : joined (names ++ [name]) = joined names ++ 0x5C :: name := by
  induction names with
  | nil => exact absurd rfl some_
  | cons first rest ih =>
    cases rest with
    | nil => rfl
    | cons next rest =>
      rw [cons_append, joined_cons (by simp), ih (by simp)]
      show _ = (first ++ 0x5C :: joined (next :: rest)) ++ _
      rw [append_assoc, cons_append]

omit [Externals] in
theorem Complete.way_of_placed (complete : Complete ix slots fr) (walkable : Walkable ix fr) (top : ix.entries.parent ix.root = none) (placed : Placed ix e k) (at_ : slots[m]? = some e) :
    ∃ names, Way ix fr names m ∧ names.length = k ∧ viewPath ix true e = joined names := by
  induction k generalizing e m with
  | zero =>
    obtain rfl : e = ix.root := some.inj placed.way
    have zero : m = 0 := some.inj (((complete.node _ m).mpr at_).symm.trans ((complete.node _ 0).mpr complete.root))
    subst zero
    exact ⟨[], .root, rfl, viewPath_root top⟩
  | succ k ih =>
    obtain ⟨up, parent, -⟩ := bind_eq_some_iff.mp placed.way
    obtain ⟨j, same, above⟩ := placed.above top parent
    obtain rfl : k = j := Nat.succ.inj same
    have notRoot : e ≠ ix.root := by
      rintro rfl
      rw [top] at parent
      cases parent
    have attached := complete.attached e m at_
    rw [Attached, if_neg notRoot, parent] at attached
    obtain ⟨p, known, below⟩ := attached
    obtain ⟨names, way, length, path⟩ := ih above ((complete.node up p).mp known)
    refine ⟨names ++ [fr.foldedOf ix m], .child way below, by simp [length], ?_⟩
    rw [placed.viewPath top parent, path, complete.foldedOf at_, VolumeIndex.joinPath]
    by_cases first : names = []
    · subst first
      rfl
    · have some_ := walkable.joined_ne_nil way first
      rw [joined_concat first]
      simp [some_, nameBytes, VolumeIndex.foldedName]

def RootOnTop (ix : VolumeIndex) : Prop := ix.IsFolder ix.root → ix.entries.parent ix.root = none

theorem isFolder_root (ok : ix.Integrity) (folder : ix.IsFolder e) (way : ascend ix.entries.parent k e = some ix.root) :
    ix.IsFolder ix.root := by
  cases k with
  | zero => exact some.inj way ▸ folder
  | succ k =>
    obtain ⟨below, before, above⟩ := ascend_last way
    exact VolumeIndex.isFolder_parent ok (ok.ascend_live folder.1 before) above

theorem shown_iff (ok : ix.Integrity) (rootOnTop : RootOnTop ix) (folder : ix.IsFolder e) (out : Bytes) :
    (ix.pathOf e out).1 = .ok ↔ ∃ k, Placed ix e k := by
  constructor
  · intro shown
    obtain ⟨live, top, ⟨⟨k, lt, way⟩, end_⟩, notLost⟩ := VolumeIndex.pathOf_ok shown
    rw [(ok.top top (ok.ascend_live live way) end_).resolve_right notLost] at way
    exact ⟨k, way, lt⟩
  · rintro ⟨k, way, lt⟩
    have end_ := rootOnTop (isFolder_root ok folder way)
    rw [VolumeIndex.Tops.pathOf ⟨⟨k, lt, way⟩, end_⟩ folder.1, if_neg ok.apart]

def folderRanks (ix : VolumeIndex) (dirs : List EntryIdx) : List Nat :=
  (gather ix dirs).2.map ((gather ix dirs).1.ranks ix)

/-- The ranks of folders with a path come as their folded paths do, and the others have the one rank after them all. -/
structure RanksLikePaths (ix : VolumeIndex) (dirs : List EntryIdx) : Prop where
  all : (folderRanks ix dirs).length = dirs.length
  order : ∀ a ∈ dirs.zip (folderRanks ix dirs), ∀ b ∈ dirs.zip (folderRanks ix dirs),
    (ix.pathOf a.1 []).1 = .ok → (ix.pathOf b.1 []).1 = .ok →
      (a.2 < b.2 ↔ viewPath ix true a.1 < viewPath ix true b.1) ∧ (a.2 = b.2 ↔ viewPath ix true a.1 = viewPath ix true b.1)
  known : ∀ a ∈ dirs.zip (folderRanks ix dirs), (ix.pathOf a.1 []).1 = .ok → a.2 < unpresentable
  unknown : ∀ a ∈ dirs.zip (folderRanks ix dirs), (ix.pathOf a.1 []).1 ≠ .ok → a.2 = unpresentable

theorem mem_zip_ranks (ok : ix.Integrity) (folders : ∀ d ∈ dirs, ix.IsFolder d) :
    ∃ slots fr, Complete ix slots fr ∧ (folderRanks ix dirs).length = dirs.length ∧
      ∀ a ∈ dirs.zip (folderRanks ix dirs), ix.IsFolder a.1 ∧ ∃ m, slots[m]? = some a.1 ∧ a.2 = fr.ranks ix m := by
  obtain ⟨slots, complete, nodes⟩ := complete_gather ok fun d mem => .inr (folders d mem)
  have lengths := congrArg List.length nodes
  rw [length_map, length_map] at lengths
  refine ⟨slots, _, complete, by rw [folderRanks, length_map, lengths], fun a inside => ?_⟩
  obtain ⟨i, at_⟩ := getElem?_of_mem inside
  obtain ⟨dir, rank⟩ := getElem?_zip_eq_some.mp at_
  rw [folderRanks, getElem?_map, map_eq_some_iff] at rank
  obtain ⟨m, node, rank⟩ := rank
  have known := congrArg (·[i]?) nodes
  simp only [getElem?_map, node, dir, map_some, Option.some.injEq] at known
  exact ⟨folders a.1 (mem_of_getElem? dir), m, (complete.node a.1 m).mp known.symm, rank.symm⟩

theorem Complete.length_le (complete : Complete ix slots fr) (ok : ix.Integrity) (rootLive : ix.Live ix.root) :
    slots.length ≤ ix.entries.capacity := by
  have sub : slots ⊆ range ix.entries.capacity := by
    intro e mem
    apply mem_range.mpr
    rcases complete.folders e mem with rfl | folder
    · exact ok.slots.live_lt _ rootLive
    · exact ok.slots.live_lt e folder.1
  simpa using (complete.nodup.subperm sub).length_le

omit [Externals] in
theorem Walkable.rank_le (walkable : Walkable ix fr) (way : Way ix fr names m) (short : names.length < maxPathHops) :
    fr.ranks ix m < fr.parent.length := by
  by_cases top : names = []
  · subst top
    have zero : m = 0 := by simpa using (holds_root ix fr _).mpr way
    rw [zero, walkable.rank_root]
    exact (List.getElem?_eq_some_iff.mp walkable.bare).1
  · obtain ⟨i, h, at_, rank⟩ := walkable.rank_of_way way top short
    have bound := (List.getElem?_eq_some_iff.mp at_).1
    have few := walkable.length_visited
    omega

theorem ranksLikePaths (ok : ix.Integrity) (ordered : ix.names.Ordered) (fits : ix.entries.capacity ≤ unpresentable)
    (proper : ProperFolders ix) (rootOnTop : RootOnTop ix) (folders : ∀ d ∈ dirs, ix.IsFolder d) :
    RanksLikePaths ix dirs := by
  obtain ⟨slots, fr, complete, length, zipped⟩ := mem_zip_ranks ok folders
  have walkable := complete.walkable ok ordered proper
  -- a folder with a path, as a node
  have shown : ∀ a ∈ dirs.zip (folderRanks ix dirs), (ix.pathOf a.1 []).1 = .ok → ∃ m names, Way ix fr names m ∧
      names.length < maxPathHops ∧ viewPath ix true a.1 = joined names ∧ a.2 = fr.ranks ix m ∧ ix.IsFolder ix.root := by
    intro a inside shown
    obtain ⟨folder, m, at_, rank⟩ := zipped a inside
    obtain ⟨k, placed⟩ := (shown_iff ok rootOnTop folder []).mp shown
    have rootFolder := isFolder_root ok folder placed.way
    obtain ⟨names, way, rfl, path⟩ := complete.way_of_placed walkable (rootOnTop rootFolder) placed at_
    exact ⟨m, names, way, placed.lt, path, rank, rootFolder⟩
  refine ⟨length, fun a aIn b bIn aShown bShown => ?_, fun a aIn aShown => ?_, fun a aIn hidden => ?_⟩
  · obtain ⟨m, names, way, short, path, rank, -⟩ := shown a aIn aShown
    obtain ⟨m', names', way', short', path', rank', -⟩ := shown b bIn bShown
    rw [rank, rank', path, path']
    exact walkable.rank_order way way' short short'
  · obtain ⟨m, names, way, short, -, rank, rootFolder⟩ := shown a aIn aShown
    have bound := walkable.rank_le way short
    have few := complete.length_le ok rootFolder.1
    rw [complete.size] at bound
    omega
  · obtain ⟨folder, m, at_, rank⟩ := zipped a aIn
    rw [rank]
    apply walkable.rank_of_no_way
    intro names way
    by_contra short
    exact hidden ((shown_iff ok rootOnTop folder []).mpr ⟨_, complete.ascend_of_way way at_, by omega⟩)

/-- Folder ranks come as folded paths do, whichever folders are gathered in whichever order, exactly if nothing has
    moved the root below another folder. -/
theorem folder_ranks_order_paths {rootFrn : Frn} (reachable : VolumeIndex.Reachable rootFrn ix) (fits : ix.entries.capacity ≤ unpresentable)
    (proper : ProperFolders ix) :
    (∀ dirs : List EntryIdx, (∀ d ∈ dirs, ix.IsFolder d) → RanksLikePaths ix dirs) ↔ RootOnTop ix := by
  have ok := reachable.invariant.integrity
  have ordered := reachable.tidy.ordered
  constructor
  · intro all folder
    obtain ⟨slots, fr, complete, length, zipped⟩ := mem_zip_ranks ok (show ∀ d ∈ [ix.root], ix.IsFolder d by simpa using folder)
    by_contra moved
    obtain ⟨rank, only⟩ := length_eq_one_iff.mp length
    have inside : (ix.root, rank) ∈ [ix.root].zip (folderRanks ix [ix.root]) := by simp [only]
    obtain ⟨-, m, at_, isRank⟩ := zipped _ inside
    have zero : m = 0 := some.inj (((complete.node _ m).mpr at_).symm.trans ((complete.node _ 0).mpr complete.root))
    have hidden : (ix.pathOf ix.root []).1 ≠ .ok := by
      intro shown
      obtain ⟨live, top, ⟨⟨k, -, way⟩, end_⟩, notLost⟩ := VolumeIndex.pathOf_ok shown
      rw [(ok.top top (ok.ascend_live live way) end_).resolve_right notLost] at end_
      exact moved end_
    have last := (all [ix.root] (by simpa using folder)).unknown _ inside hidden
    rw [isRank, zero, (complete.walkable ok ordered proper).rank_root] at last
    exact absurd last (by decide)
  · intro rootOnTop dirs folders
    exact ranksLikePaths ok ordered fits proper rootOnTop folders

theorem proper_of_small {ix : VolumeIndex} (ok : ix.Integrity) {n : Nat} (small : ix.entries.capacity = n)
    (names : ∀ e < n, e ≠ ix.root → ix.foldedName e ≠ [] ∧ 0x5C ∉ ix.foldedName e) : ProperFolders ix :=
  fun e folder notRoot => names e (small ▸ ok.slots.live_lt e folder.1) notRoot

omit [Externals] in
/-- In an index with the folder `a` under the root the ranks are in order. -/
theorem folderIndex_ranks :
    letI := ascii
    ProperFolders VolumeIndex.folderIndex ∧ RanksLikePaths VolumeIndex.folderIndex [2, 0] := by
  let _ := ascii
  have ok := VolumeIndex.reachable_folderIndex.invariant.integrity
  have proper : ProperFolders VolumeIndex.folderIndex := proper_of_small ok rfl (by decide)
  have top : RootOnTop VolumeIndex.folderIndex := fun _ => rfl
  refine ⟨proper, (folder_ranks_order_paths VolumeIndex.reachable_folderIndex (by decide) proper).mpr top [2, 0] ?_⟩
  intro d mem
  have live : ∀ d ∈ [2, 0], VolumeIndex.folderIndex.entries.isTombstone d = false ∧
    (VolumeIndex.folderIndex.entries.flags d).dir = true := by decide
  obtain ⟨alive, dir⟩ := live d mem
  exact ⟨alive, .inl dir⟩

def movedRootIndex : VolumeIndex :=
  letI := ascii
  VolumeIndex.folderIndex.insertEnum { VolumeIndex.rootRecord with parentFrn := ⟨0x0001000000000007⟩ }

omit [Externals] in
/-- All three folders are under lost+found, and only one of them is ranked so. -/
theorem movedRootIndex_ranks :
    letI := ascii
    VolumeIndex.Reachable ntfsRootFrn movedRootIndex ∧ ProperFolders movedRootIndex ∧
      (∀ d ∈ [0, 2, 3], movedRootIndex.IsFolder d ∧ (movedRootIndex.pathOf d []).1 = .inLostFound) ∧
      folderRanks movedRootIndex [0, 2, 3] = [0, 1, unpresentable] := by
  let _ := ascii
  have reachable : VolumeIndex.Reachable ntfsRootFrn movedRootIndex :=
    .step (.insertEnum { VolumeIndex.rootRecord with parentFrn := ⟨0x0001000000000007⟩ }) VolumeIndex.reachable_folderIndex trivial
  refine ⟨reachable, proper_of_small reachable.invariant.integrity rfl (by decide), ?_, by decide +kernel⟩
  intro d mem
  have live : ∀ d ∈ [0, 2, 3], movedRootIndex.entries.isTombstone d = false ∧ (movedRootIndex.entries.flags d).dir = true ∧
    (movedRootIndex.pathOf d []).1 = .inLostFound := by decide +kernel
  obtain ⟨alive, dir, path⟩ := live d mem
  exact ⟨⟨alive, .inl dir⟩, path⟩

end Goz.Query.FolderRanks
