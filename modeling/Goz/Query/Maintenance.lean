import Goz.Query.RowOrder
import Goz.Query.Scope
import Goz.Query.Upkeep

namespace Goz.Query

open VolumeIndex Smallest List Asking Externals PageRequest Candidate

variable {ix ix' : VolumeIndex} {fr fr' : FolderRanks} {move : NameId → NameId} {rootFrn : Frn}

namespace FolderRanks

section Ranks

variable {a b p q : Nat} {opened : List (List Nat)}

theorem KeysAgree.nodeLe (agree : fr.KeysAgree ix) (atA : fr.parent[a]? = some (some p)) (atB : fr.parent[b]? = some (some q)) :
    fr.nodeLe ix a b = (compare (fr.foldedOf ix a) (fr.foldedOf ix b)).isLE := by
  unfold FolderRanks.nodeLe
  rw [compare_then_of_follows]
  · exact fun lt => (agree a b p q atA atB).1 (compare_bytes_eq_lt.mp lt)
  · exact fun eq => (agree a b p q atA atB).2 (Std.LawfulEqOrd.eq_of_compare eq)
  · exact fun gt => (agree b a q p atB atA).1 (compare_bytes_eq_gt.mp gt)

theorem KeysAgree.sameName (agree : fr.KeysAgree ix) (atA : fr.parent[a]? = some (some p)) (atB : fr.parent[b]? = some (some q)) :
    fr.sameName ix a b = decide (fr.foldedOf ix a = fr.foldedOf ix b) := by
  unfold FolderRanks.sameName
  by_cases same : fr.foldedOf ix a = fr.foldedOf ix b
  · simp [same, (agree a b p q atA atB).2 same]
  · simp [same]

/-- The same nodes over another store: folders in folders keep their names. -/
structure Renamed (ix ix' : VolumeIndex) (fr fr' : FolderRanks) : Prop where
  parent : fr'.parent = fr.parent
  folded : ∀ m p, fr.parent[m]? = some (some p) → fr'.foldedOf ix' m = fr.foldedOf ix m
  agree : fr.KeysAgree ix
  agree' : fr'.KeysAgree ix'

variable (renamed : Renamed ix ix' fr fr')
include renamed

theorem Renamed.groupsBelow (group : List Nat) : fr'.groupsBelow ix' group = fr.groupsBelow ix group := by
  have children : fr'.childrenOf = fr.childrenOf := by
    funext node
    rw [childrenOf, childrenOf, renamed.parent]
  have below : ∀ m ∈ group.flatMap fr.childrenOf, ∃ p, fr.parent[m]? = some (some p) := by
    intro m mem
    obtain ⟨p, -, child⟩ := mem_flatMap.mp mem
    exact ⟨p, mem_childrenOf.mp child⟩
  have sorted : (group.flatMap fr.childrenOf).mergeSort (fr'.nodeLe ix') = (group.flatMap fr.childrenOf).mergeSort (fr.nodeLe ix) := by
    apply sort_congr_of_mem
    intro a left b right
    obtain ⟨p, atA⟩ := below a left
    obtain ⟨q, atB⟩ := below b right
    rw [renamed.agree.nodeLe atA atB, renamed.agree'.nodeLe (renamed.parent ▸ atA) (renamed.parent ▸ atB),
      renamed.folded a p atA, renamed.folded b q atB]
  unfold FolderRanks.groupsBelow
  rw [children, sorted]
  apply splitBy_congr_of_mem
  intro a left b right
  obtain ⟨p, atA⟩ := below a (mem_mergeSort.mp left)
  obtain ⟨q, atB⟩ := below b (mem_mergeSort.mp right)
  rw [renamed.agree.sameName atA atB, renamed.agree'.sameName (renamed.parent ▸ atA) (renamed.parent ▸ atB),
    renamed.folded a p atA, renamed.folded b q atB]

theorem Renamed.groupName {group g : List Nat} (inside : g ∈ fr.groupsBelow ix group) : fr'.groupName ix' g = fr.groupName ix g := by
  unfold FolderRanks.groupName
  cases g with
  | nil => rfl
  | cons m rest =>
    obtain ⟨p, -, at_⟩ := mem_groupsBelow.mp ⟨_, inside, mem_cons_self⟩
    simp [renamed.folded m p at_]

omit renamed in
theorem closeBefore_congr (same : ∀ g ∈ opened, fr'.groupName ix' g = fr.groupName ix g) (depth : Nat)
    (name : Bytes) : fr'.closeBefore ix' depth name opened = fr.closeBefore ix depth name opened ∧
      ∀ g ∈ (fr.closeBefore ix depth name opened).2, g ∈ opened := by
  induction opened with
  | nil => exact ⟨rfl, nofun⟩
  | cons group rest ih =>
    obtain ⟨closed, kept⟩ := ih fun g mem => same g (mem_cons_of_mem _ mem)
    unfold closeBefore
    rw [same group mem_cons_self]
    split
    · exact ⟨rfl, fun g mem => mem⟩
    · rw [closed]
      exact ⟨rfl, fun g mem => mem_cons_of_mem _ (kept g mem)⟩

omit renamed in
theorem levelSteps_congr (depth : Nat) {groups : List (List Nat)} (same : ∀ g ∈ groups, fr'.groupName ix' g = fr.groupName ix g)
    (same' : ∀ g ∈ opened, fr'.groupName ix' g = fr.groupName ix g) :
    fr'.levelSteps ix' depth groups opened = fr.levelSteps ix depth groups opened := by
  induction groups generalizing opened with
  | nil => rfl
  | cons group rest ih =>
    obtain ⟨closed, kept⟩ := closeBefore_congr same' depth (fr.groupName ix group)
    unfold levelSteps
    rw [same group mem_cons_self, closed]
    dsimp only
    rw [ih (fun g mem => same g (mem_cons_of_mem _ mem))
      (forall_mem_cons.mpr ⟨same group mem_cons_self, fun g mem => same' g (kept g mem)⟩)]

theorem Renamed.ranks : fr'.ranks ix' = fr.ranks ix := by
  have walk : ∀ fuel steps rank nextRank, fr'.walkRanks ix' fuel steps rank nextRank = fr.walkRanks ix fuel steps rank nextRank := by
    intro fuel
    induction fuel with
    | zero => exact fun _ _ _ => rfl
    | succ fuel ih =>
      intro steps rank nextRank
      match steps with
      | [] => rfl
      | .folder group :: steps => exact ih _ _ _
      | .below group depth :: steps =>
        unfold walkRanks
        rw [renamed.groupsBelow, levelSteps_congr depth (fun g inside => renamed.groupName inside) (by simp)]
        simp only [ih]
  unfold FolderRanks.ranks
  rw [renamed.parent, walk]

end Ranks

section Nodes

structure Matched (fr fr' : FolderRanks) : Prop where
  nodeOf : fr'.nodeOf = fr.nodeOf
  parent : fr'.parent = fr.parent
  last : fr'.last = fr.last

theorem Matched.push (matched : Matched fr fr') (ix ix' : VolumeIndex) (dir : EntryIdx) :
    Matched (fr.push ix dir).1 (fr'.push ix' dir).1 ∧ (fr'.push ix' dir).2 = (fr.push ix dir).2 := by
  unfold FolderRanks.push
  rw [matched.nodeOf, matched.parent]
  exact ⟨⟨rfl, rfl, matched.last⟩, rfl⟩

theorem Matched.attach (matched : Matched fr fr') (child node : Nat) : Matched (fr.attach child node) (fr'.attach child node) := by
  unfold FolderRanks.attach
  rw [matched.parent]
  exact ⟨matched.nodeOf, rfl, matched.last⟩

variable [Externals] (same : Restored move ix ix')
include same

theorem Matched.pushAbove (fuel : Nat) (matched : Matched fr fr') (child : Nat) (cur : EntryIdx) :
    Matched (pushAbove ix fuel fr child cur) (pushAbove ix' fuel fr' child cur) := by
  induction fuel generalizing fr fr' child cur with
  | zero => exact matched
  | succ fuel ih =>
    unfold pushAbove
    rw [same.parent]
    cases ix.entries.parent cur with
    | none => exact matched
    | some up =>
      dsimp only
      rw [matched.nodeOf]
      cases fr.nodeOf up with
      | some node => exact matched.attach child node
      | none =>
        obtain ⟨pushed, number⟩ := matched.push ix ix' up
        dsimp only
        rw [number]
        exact ih (pushed.attach child _) _ up

theorem Matched.node (matched : Matched fr fr') (dir : EntryIdx) :
    Matched (fr.node ix dir).1 (fr'.node ix' dir).1 ∧ (fr'.node ix' dir).2 = (fr.node ix dir).2 := by
  have looked : Matched (node.lookup ix fr dir).1 (node.lookup ix' fr' dir).1 ∧
      (node.lookup ix' fr' dir).2 = (node.lookup ix fr dir).2 := by
    unfold node.lookup
    rw [matched.nodeOf]
    cases fr.nodeOf dir with
    | some n => exact ⟨⟨rfl, matched.parent, rfl⟩, rfl⟩
    | none =>
      obtain ⟨pushed, number⟩ := matched.push ix ix' dir
      have capacity : ix'.entries.capacity = ix.entries.capacity := by rw [same.entries]
      unfold pushChain
      dsimp only
      rw [capacity, number]
      have above := pushed.pushAbove same (ix.entries.capacity + 1) (fr.push ix dir).2 dir
      exact ⟨⟨above.nodeOf, above.parent, rfl⟩, rfl⟩
  unfold FolderRanks.node
  rw [matched.last]
  cases fr.last with
  | none => exact looked
  | some seen =>
    dsimp only
    split
    · exact ⟨matched, rfl⟩
    · exact looked

theorem isFolder_restored {d : EntryIdx} : ix'.IsFolder d ↔ ix.IsFolder d := by
  simp only [IsFolder, same.live, same.parent]
  rw [same.entries]

theorem Matched.renamed (matched : Matched fr fr') {slots slots' : List EntryIdx} (complete : Complete ix slots fr)
    (complete' : Complete ix' slots' fr') : Renamed ix ix' fr fr' where
  parent := matched.parent
  folded := by
    intro m p at_
    obtain ⟨e, -, here, -, folder, -, -⟩ := complete.above at_
    have there := (complete'.node e m).mp (matched.nodeOf ▸ (complete.node e m).mpr here)
    rw [complete.foldedOf here, complete'.foldedOf there, same.foldedName folder.1]
  agree := complete.keysAgree same.ok same.tidy.ordered
  agree' := complete'.keysAgree same.ok' same.tidy'.ordered

end Nodes

end FolderRanks

section Keys

open FolderRanks

theorem folderNodes_concat (ix : VolumeIndex) (found : List Candidate) (c : Candidate) :
    folderNodes ix (found ++ [c]) =
      let asked := ((ix.entries.parent c.idx).map ((folderNodes ix found).1.node ix)).getD ((folderNodes ix found).1, unpresentable)
      (asked.1, (folderNodes ix found).2 ++ [{ c with key := asked.2 }]) := by
  simp only [folderNodes, foldl_append, foldl_cons, foldl_nil]

variable [Externals] {found : List Candidate} (same : Restored move ix ix')
include same

theorem folderNodes_restored (live : ∀ c ∈ found, ix.Live c.idx) :
    (folderNodes ix' found).2 = (folderNodes ix found).2 ∧
      (folderNodes ix' found).1.ranks ix' = (folderNodes ix found).1.ranks ix := by
  suffices ∃ slots slots', Matched (folderNodes ix found).1 (folderNodes ix' found).1 ∧ Complete ix slots (folderNodes ix found).1 ∧
      Complete ix' slots' (folderNodes ix' found).1 ∧ (folderNodes ix' found).2 = (folderNodes ix found).2 by
    obtain ⟨slots, slots', matched, complete, complete', nodes⟩ := this
    exact ⟨nodes, (matched.renamed same complete complete').ranks⟩
  induction found using reverseRecOn with
  | nil =>
    refine ⟨_, _, ⟨?_, rfl, rfl⟩, complete_new ix, complete_new ix', rfl⟩
    show (new ix').nodeOf = (new ix).nodeOf
    unfold FolderRanks.new FolderRanks.push
    rw [same.root]
  | append_singleton found c ih =>
    obtain ⟨slots, slots', matched, complete, complete', nodes⟩ := ih fun x mem => live x (mem_append_left _ mem)
    rw [folderNodes_concat, folderNodes_concat, same.parent]
    cases above : ix.entries.parent c.idx with
    | none => exact ⟨slots, slots', matched, complete, complete', by simp [nodes]⟩
    | some p =>
      have folder := isFolder_parent same.ok (live c (by simp)) above
      obtain ⟨asked, number⟩ := matched.node same p
      obtain ⟨more, grown, -⟩ := complete.asked same.ok (.inr folder)
      obtain ⟨more', grown', -⟩ := complete'.asked same.ok' (.inr ((isFolder_restored same).mpr folder))
      exact ⟨_, _, asked, grown, grown', by simp [nodes, number]⟩

omit same [Externals] in
theorem folderNodes_idx (ix : VolumeIndex) (found : List Candidate) : (folderNodes ix found).2.map idx = found.map idx := by
  induction found using reverseRecOn with
  | nil => rfl
  | append_singleton found c ih => rw [folderNodes_concat, map_append, map_append, ih]; rfl

theorem candidateLe_restored {sort : SortSpec} {x y : EntryIdx} {k l k' l' : Nat} (liveX : ix.Live x) (liveY : ix.Live y)
    (keys : (compare k' l').then (compare (ix.foldedName x) (ix.foldedName y)) =
      (compare k l).then (compare (ix.foldedName x) (ix.foldedName y))) :
    candidateLe ix' sort ⟨x, k'⟩ ⟨y, l'⟩ = candidateLe ix sort ⟨x, k⟩ ⟨y, l⟩ := by
  unfold candidateLe cmpCandidate cmpAscending
  simp only [same.foldedName liveX, same.foldedName liveY, keys]

theorem keyed_restored (sort : SortSpec) (live : ∀ c ∈ found, ix.Live c.idx) :
    ((keyed ix' sort found).mergeSort (candidateLe ix' sort)).map idx =
      ((keyed ix sort found).mergeSort (candidateLe ix sort)).map idx := by
  suffices ∃ (base : List Candidate) (g g' : Candidate → Candidate), keyed ix sort found = base.map g ∧
      keyed ix' sort found = base.map g' ∧ (∀ c, (g c).idx = c.idx ∧ (g' c).idx = c.idx) ∧
      ∀ a ∈ base, ∀ b ∈ base, candidateLe ix' sort (g' a) (g' b) = candidateLe ix sort (g a) (g b) by
    obtain ⟨base, g, g', first, second, kept, agree⟩ := this
    rw [first, second, ← map_mergeSort (r := fun a b => candidateLe ix' sort (g' a) (g' b)) fun _ _ _ _ => rfl,
      ← map_mergeSort (r := fun a b => candidateLe ix sort (g a) (g b)) fun _ _ _ _ => rfl, sort_congr_of_mem agree,
      map_map, map_map]
    apply map_congr_left
    intro c _
    exact (kept c).2.trans (kept c).1.symm
  by_cases path : sort.key = .path
  · obtain ⟨nodes, ranks⟩ := folderNodes_restored same live
    have alive : ∀ c ∈ (folderNodes ix found).2, ix.Live c.idx := by
      intro c mem
      have inside := mem_map_of_mem (f := idx) mem
      rw [folderNodes_idx] at inside
      obtain ⟨x, held, at_⟩ := mem_map.mp inside
      exact at_ ▸ live x held
    refine ⟨(folderNodes ix found).2, fun c => packed ix c.idx ((folderNodes ix found).1.ranks ix c.key),
      fun c => packed ix' c.idx ((folderNodes ix found).1.ranks ix c.key), ?_, ?_, fun c => ⟨rfl, rfl⟩, ?_⟩
    · rw [keyed, if_pos path]
      rfl
    · rw [keyed, if_pos path, pathKeys, nodes, ranks]
      rfl
    · intro a left b right
      have liveA := alive a left
      have liveB := alive b right
      apply candidateLe_restored same liveA liveB
      have before := packed_follows same.tidy.ordered (same.ok.name_live liveA) (same.ok.name_live liveB)
      have after_ := packed_follows same.tidy'.ordered (same.ok'.name_live (same.live.mpr liveA))
        (same.ok'.name_live (same.live.mpr liveB))
      rw [same.foldedName liveA, same.foldedName liveB] at after_
      exact (after_ _ _).trans (before _ _).symm
  · refine ⟨found, fun c => { c with key := entryKey ix sort c.idx }, fun c => { c with key := entryKey ix' sort c.idx },
      if_neg path, if_neg path, fun c => ⟨rfl, rfl⟩, ?_⟩
    intro a left b right
    have liveA := live a left
    have liveB := live b right
    apply candidateLe_restored same liveA liveB
    cases key : sort.key with
    | path => exact absurd key path
    | size =>
      simp only [entryKey, key, same.sizeAt]
    | dateModified =>
      simp only [entryKey, key, same.mtimeAt]
    | name =>
      have before := nameKey_follows same.tidy.ordered monotone_id (same.ok.name_live liveA) (same.ok.name_live liveB)
      have after_ := nameKey_follows same.tidy'.ordered monotone_id (same.ok'.name_live (same.live.mpr liveA))
        (same.ok'.name_live (same.live.mpr liveB))
      rw [same.foldedName liveA, same.foldedName liveB] at after_
      simp only [entryKey, key]
      exact after_.trans before.symm

omit same [Externals] in
theorem rowsOf_eq (ix : VolumeIndex) (found : List Candidate) (page : Nat × Nat) :
    rowsOf ix found page = (((found.map idx).take page.2).drop page.1).map fun e => ⟨e, ix.entries.frn e⟩ := by
  rw [rowsOf, ← map_take, ← map_drop, map_map]
  rfl

theorem filesSize_restored : filesSize ix' = filesSize ix := by
  have size : fileSize ix' = fileSize ix := by
    funext e
    rw [fileSize, fileSize, same.isDir, same.sizeAt]
  funext entries
  rw [filesSize, filesSize, size]

theorem scanPage_restored (req : PageRequest) (live : ∀ c ∈ found, ix.Live c.idx) : req.scanPage ix' found = req.scanPage ix found := by
  have frn : ix'.entries.frn = ix.entries.frn := by rw [same.entries]
  unfold scanPage
  simp only [rowsOf_eq, filesSize_restored same, frn]
  unfold order orderTop
  split
  case isTrue none_ => simp [none_]
  case isFalse => rw [keyed_restored same req.sort live]

end Keys

section Names

variable [Externals] {parsed : ParsedQuery} {compiled : CompiledQuery} {id : NameId}

theorem taken_kept (tidy : ix.names.Tidy) (nonempty : ∀ needle, driver parsed compiled = some needle → needle ≠ []) :
    taken ix parsed compiled = (ix.names.keptBelow ix.names.ids).filter (takes ix parsed compiled) := by
  rw [taken, NameStore.keptBelow, filter_filter]
  apply filter_congr
  intro id below
  cases took : takes ix parsed compiled id with
  | false => rfl
  | true =>
    have live : 0 < ix.names.refcount id := live_of_takes tidy nonempty (mem_range.mp below) took
    simp [live]

variable (same : Restored move ix ix')
include same

theorem taken_restored (nonempty : ∀ needle, driver parsed compiled = some needle → needle ≠ []) :
    taken ix' parsed compiled = (taken ix parsed compiled).map move := by
  rw [taken_kept same.tidy' nonempty, taken_kept same.tidy nonempty]
  apply filter_kept_restored same
  intro id live
  unfold takes named
  rw [same.nameMatches live, same.names.folded id live, same.names.refcount id live]

theorem own_restored (live : ix.names.Live id) : own ix' (move id) = own ix id := by
  rw [own, own, same.nameChain live, same.isSynthetic]

theorem entriesBearing_restored (live : ix.names.Live id) : entriesBearing ix' (move id) = entriesBearing ix id := by
  unfold entriesBearing nameMayBearSynthetic
  rw [same.names.raw id live, same.names.refcount id live, same.nameChain live, same.isSynthetic]

variable {ids : List NameId} (live : ∀ id ∈ ids, ix.names.Live id)
include live

theorem flatMap_own_restored : (ids.map move).flatMap (own ix') = ids.flatMap (own ix) := by
  rw [flatMap_map]
  exact flatMap_congr fun id mem => own_restored same (live id mem)

theorem allRows_restored (dir : SortDir) : allRows ix' dir (ids.map move) = allRows ix dir ids := by
  have groups : (ids.map move).splitBy (fun a b => ix'.names.foldedBytesOf a = ix'.names.foldedBytesOf b) =
      (ids.splitBy fun a b => ix.names.foldedBytesOf a = ix.names.foldedBytesOf b).map (List.map move) := by
    apply splitBy_map
    intro a left b right
    rw [same.names.folded a (live a left), same.names.folded b (live b right)]
  unfold allRows
  rw [groups, flatMap_map]
  apply flatMap_congr
  intro group inside
  have held : ∀ id ∈ group, ix.names.Live id := by
    intro id mem
    apply live
    rw [← flatten_splitBy (fun a b => ix.names.foldedBytesOf a = ix.names.foldedBytesOf b) ids]
    exact mem_flatten_of_mem inside mem
  have rows := flatMap_own_restored same held
  unfold own at rows
  unfold groupEntries
  rw [rows]

theorem sort_names_restored (dir : SortDir) : (ids.map move).mergeSort (nameLe ix' dir) = (ids.mergeSort (nameLe ix dir)).map move := by
  symm
  apply map_mergeSort
  intro a left b right
  have liveA := live a left
  have liveB := live b right
  unfold nameLe
  rw [same.names.keyLe same.tidy.wf liveA liveB, same.names.keyLe same.tidy.wf liveB liveA]

theorem namesOutcome_restored (req : PageRequest) (total : Nat) : namesOutcome ix' req total (ids.map move) = namesOutcome ix req total ids := by
  have frn : ix'.entries.frn = ix.entries.frn := by rw [same.entries]
  have sorted : ∀ id ∈ ids.mergeSort (nameLe ix req.sort.dir), ix.names.Live id := fun id mem => live id (mem_mergeSort.mp mem)
  unfold namesOutcome
  rw [sort_names_restored same live, allRows_restored same sorted, flatMap_own_restored same live, filesSize_restored same, frn]

end Names

section Pages

variable [Externals] {e : EntryIdx} {per : Nat}

theorem not_lost_of_empty (ok : ix.Integrity) (empty : ix.hasOrphans = false) (live : ix.Live e) :
    ix.entries.parent e ≠ some ix.lostFound := by
  intro lost
  have none_ : ix.entries.firstChild ix.lostFound = none := by simpa [hasOrphans] using empty
  have child : e ∈ ix.children ix.lostFound := ((ok.children ix.lostFound).2 e).mpr ⟨live, lost⟩
  rw [children_of_none ok none_] at child
  cases child

theorem root_top_of_presentable (reachable : Reachable rootFrn ix) (presentable : Presentable ix) (plain : ix.mayHaveUnpresentable = false)
    (live : ix.Live ix.root) : ix.entries.parent ix.root = none := by
  have ok := reachable.invariant.integrity
  have marked := reachable.marked
  obtain ⟨empty, unsuspected⟩ := Bool.or_eq_false_iff.mp plain
  have clean : ix.cycleSuspects = [] := by simpa [hasParentCycle] using unsuspected
  cases above : ix.entries.parent ix.root with
  | none => rfl
  | some p =>
    have parentLive := ok.parent_live ix.root p live above
    have notRoot : p ≠ ix.root := by
      rintro rfl
      have noted := reachable.loopsNoted ix.root live above
      rw [clean] at noted
      cases noted
    have notLost : p ≠ ix.lostFound := by
      rintro rfl
      exact not_lost_of_empty ok empty live above
    have file : ix.isSynthetic p = false := by
      have held : (ix.entries.flags p).placeholder = false := by
        by_contra placed
        exact not_lost_of_empty ok empty parentLive (marked.held p parentLive (by simpa using placed))
      have unlost : (ix.entries.flags p).lostFound = false := by
        by_contra flagged
        exact notLost (marked.only p parentLive (by simpa using flagged))
      simp [isSynthetic, notRoot, notLost, held, unlost]
    obtain ⟨q, -, shown⟩ := presentable p parentLive file
    obtain ⟨n, top, way, end_, -, away, there⟩ := pathOf_above ok shown (rfl : Ascent.ascend ix.entries.parent 0 q = some q)
    rcases ok.top top (ok.ascend_live there way) end_ with rfl | lost
    · exact absurd end_ (by simp [above])
    · exact absurd lost away

theorem bearing_of_presentable (reachable : Reachable rootFrn ix) (presentable : Presentable ix) (plain : ix.mayHaveUnpresentable = false)
    (id : NameId) : entriesBearing ix id = (own ix id).length := by
  have ok := reachable.invariant.integrity
  have marked := reachable.marked
  have empty := (Bool.or_eq_false_iff.mp plain).1
  apply entriesBearing_eq ok
  intro id e mem synthetic
  obtain ⟨live, rfl⟩ := ((ok.nameChain id).2.1 e).mp mem
  have lost : nameMayBearSynthetic ix (ix.entries.nameId ix.lostFound) = true := by
    have named : ix.names.rawBytes (ix.entries.nameId ix.lostFound) = lostFoundName := reachable.lostNamed
    simp [nameMayBearSynthetic, named]
  simp only [isSynthetic, Bool.or_eq_true, decide_eq_true_eq] at synthetic
  rcases synthetic with ((rfl | rfl) | held) | flagged
  · have named : ix.names.rawBytes (ix.entries.nameId ix.root) = [] :=
      reachable.rootUnnamed live (root_top_of_presentable reachable presentable plain live)
    simp [nameMayBearSynthetic, named]
  · exact lost
  · exact absurd (marked.held e live held) (not_lost_of_empty ok empty live)
  · rw [marked.only e live flagged]
    exact lost

theorem route_names {req : PageRequest} {fast : Bool} (way : req.route ix fast = .names) :
    req.sort.key = .name ∧ isNameLevel ix req.parsed req.compiled (req.scopeIn ix) = true := by
  unfold route at way
  split at way
  case isTrue level =>
    simp only [Bool.and_eq_true, decide_eq_true_eq] at level
    exact ⟨level.1.2, level.2⟩
  · split at way
    · cases way
    · split at way <;> cases way

theorem pageRefs_eq_scanPage (ok : ix.Integrity) (tidy : ix.names.Tidy)
    (bearing : ix.mayHaveUnpresentable = false → ∀ id, entriesBearing ix id = (own ix id).length) (req : PageRequest) (fast : Bool)
    (schedule : Schedule ix.names.ids per) :
    req.pageRefs ix schedule fast = req.scanPage ix (scan ix req.parsed req.compiled (req.scopeIn ix)).quiet := by
  unfold pageRefs
  split
  case h_1 way =>
    obtain ⟨key, level⟩ := route_names way
    obtain ⟨unscoped, -, -, -, plain⟩ := isNameLevel_iff.mp level
    rw [unscoped] at level ⊢
    exact namesPage_eq_scanPage tidy ok key level schedule.pos (bearing plain)
  case h_2 limit way =>
    obtain ⟨limited, applies⟩ := route_topK way
    exact topKPage_eq_scanPage ok req limited applies schedule
  case h_3 => rfl

variable (same : Restored move ix ix')
include same

theorem scan_restored (gate : ix'.mayHaveUnpresentable = ix.mayHaveUnpresentable ∨ Presentable ix) (req : PageRequest) :
    req.scanPage ix' (scan ix' req.parsed req.compiled (req.scopeIn ix')).quiet =
      req.scanPage ix (scan ix req.parsed req.compiled (req.scopeIn ix)).quiet := by
  have scope : req.scopeIn ix' = req.scopeIn ix := by rw [scopeIn, scopeIn, same.root]
  obtain ⟨found, live⟩ : (scanWith ix' req.parsed req.compiled (req.scopeIn ix) subtreeWalkMax).quiet = _ ∧ _ :=
    scanWith_restored same gate (fun _ => compile_pathPiece_ne_nil) (fun _ => driver_ne_nil) (req.scopeIn ix) subtreeWalkMax
  rw [scope, scan, scan, found]
  exact scanPage_restored same req live

theorem pageRefs_restored (agree : ix'.mayHaveUnpresentable = ix.mayHaveUnpresentable) (req : PageRequest) (fast : Bool) {per' : Nat}
    (schedule : Schedule ix.names.ids per) (schedule' : Schedule ix'.names.ids per') :
    req.pageRefs ix' schedule' fast = req.pageRefs ix schedule fast := by
  have scope : req.scopeIn ix' = req.scopeIn ix := by rw [scopeIn, scopeIn, same.root]
  have way : req.route ix' fast = req.route ix fast := by
    unfold route isNameLevel topKApplies
    rw [scope, agree]
  have literal : ∀ needle, driver req.parsed req.compiled = some needle → needle ≠ [] := fun _ => driver_ne_nil
  cases route : req.route ix fast with
  | scan =>
    unfold pageRefs
    rw [way, route]
    exact scan_restored same (.inl agree) req
  | topK limit =>
    obtain ⟨limited, applies⟩ := route_topK route
    obtain ⟨-, applies'⟩ := route_topK (way.trans route)
    unfold pageRefs
    rw [way, route]
    dsimp only
    rw [topKPage_eq_scanPage same.ok req limited applies, topKPage_eq_scanPage same.ok' req limited applies']
    exact scan_restored same (.inl agree) req
  | names =>
    have live := live_of_taken same.tidy req
    unfold pageRefs
    rw [way, route]
    dsimp only
    rw [namesPage_eq same.tidy same.ok req schedule.pos, namesPage_eq same.tidy' same.ok' req schedule'.pos, taken_restored same literal,
      namesOutcome_restored same live, map_map]
    congr 2
    exact map_congr_left fun id mem => entriesBearing_restored same (live id mem)

end Pages

variable [Externals]

def passes (ix : VolumeIndex) (e : EntryIdx) : Bool :=
  !ix.isSynthetic e && (!ix.mayHaveUnpresentable || (ix.entries.parent e).any fun p => decide ((ix.pathOf p []).1 = .ok))

theorem quiet_everything {st : Searching} (bare : st.memos.folders = none) (knows : KnowsPaths ix st.memos.dirPaths) (entries : List EntryIdx) :
    (consultEach ix allBySize.parsed allBySize.compiled none false entries st).quiet.candidates =
      st.candidates ++ (entries.filter (passes ix)).map (⟨·, 0⟩) := by
  induction entries generalizing st with
  | nil => simp [consultEach]
  | cons e rest ih =>
    obtain ⟨paths, knows', tested⟩ := quiet_pathTest_bare bare knows allBySize.parsed allBySize.compiled e
    have evaluated : (evaluate ix allBySize.parsed allBySize.compiled none false st.memos e).quiet =
        (if (!ix.mayHaveUnpresentable || (ix.entries.parent e).any fun p => decide ((ix.pathOf p []).1 = .ok)) then some ⟨e, 0⟩ else none,
          { st.memos with dirPaths := paths }) := by
      have columns : columnsMatch ix allBySize.parsed.filters e = true := rfl
      have named : (nameTest ix allBySize.parsed allBySize.compiled false e).quiet = true := rfl
      unfold evaluate
      simp only [columns, named, Memos.scopeTest, if_true, quiet_bind, tested, quiet_pure]
    unfold consultEach
    simp only [quiet_bind, Watch.quiet_tick, Bool.false_eq_true, if_false]
    unfold consult
    cases file : ix.isSynthetic e with
    | true =>
      rw [if_pos rfl, quiet_pure, ih (by exact bare) (by exact knows), filter_cons_of_neg (by simp [passes, file])]
    | false =>
      rw [if_neg (by simp), quiet_bind, evaluated, quiet_pure, ih (by exact bare) (by exact knows'), filter_cons]
      simp only [passes, file, Bool.not_false, Bool.true_and]
      split <;> simp

theorem quiet_scan_everything (ix : VolumeIndex) :
    (scan ix allBySize.parsed allBySize.compiled (allBySize.scopeIn ix)).quiet =
      (ix.entries.iterLive.filter (passes ix)).map (⟨·, 0⟩) := by
  unfold scan scanWith
  rw [if_pos (show allBySize.compiled.volumeAdmits = true from rfl)]
  show (consultEach ix allBySize.parsed allBySize.compiled none false ix.entries.iterLive _ >>= fun scanned => pure scanned.candidates).quiet = _
  rw [quiet_bind, quiet_pure, quiet_everything (by rfl) (by exact fun _ _ held => nomatch held), nil_append]

/-- Indexes that answer alike: every entry has the same path, and every page the same rows, total and size. -/
structure SameAnswers (ix ix' : VolumeIndex) : Prop where
  paths : ∀ e out, ix'.pathOf e out = ix.pathOf e out
  pages : ∀ (req : PageRequest) (fast : Bool) {per per' : Nat} (schedule : Schedule ix.names.ids per)
    (schedule' : Schedule ix'.names.ids per'), req.pageRefs ix' schedule' fast = req.pageRefs ix schedule fast

structure Invisible (ix : VolumeIndex) : Prop where
  merge : SameAnswers ix ix.mergeNames
  compact : ∀ plan, ix.planCompaction = some plan → SameAnswers ix (ix.applyCompaction plan)
  optimize : ∀ capacity, SameAnswers ix (ix.optimizeStorage capacity)

theorem sameAnswers_restored {move : NameId → NameId} (same : Restored move ix ix')
    (agree : ix'.mayHaveUnpresentable = ix.mayHaveUnpresentable) : SameAnswers ix ix' :=
  ⟨same.pathOf, fun req fast _ _ schedule schedule' => pageRefs_restored same agree req fast schedule schedule'⟩

theorem restored_optimized (reachable : Reachable rootFrn ix) (capacity : Nat) : Restored id ix (ix.optimizeStorage capacity) :=
  (restored_resorted reachable.invariant.integrity reachable.tidy .build _).pruned

omit [Externals] in
theorem gate_optimized (ix : VolumeIndex) (capacity : Nat) :
    (ix.optimizeStorage capacity).mayHaveUnpresentable = ix.pruneCycleSuspects.mayHaveUnpresentable := by
  have below : ∀ hops node ancestor, isAtOrBelowWithin { ix with names := ix.names.buildOrder, byFrn := ix.byFrn.densifyIfSmaller capacity }
      hops node ancestor = ix.isAtOrBelowWithin hops node ancestor := by
    intro hops
    induction hops with
    | zero => exact fun _ _ => rfl
    | succ hops ih =>
      intro node ancestor
      simp only [isAtOrBelowWithin, ih]
  unfold optimizeStorage mayHaveUnpresentable hasParentCycle pruneCycleSuspects isAtOrBelow
  simp only [below]
  rfl

theorem sameAnswers_of_presentable (reachable : Reachable rootFrn ix) (presentable : Presentable ix) (capacity : Nat) :
    SameAnswers ix (ix.optimizeStorage capacity) := by
  have same := restored_optimized reachable capacity
  have presentable' : Presentable (ix.optimizeStorage capacity) := by
    intro e live file
    rw [same.isSynthetic] at file
    simp only [same.parent, same.pathOf]
    exact presentable e (same.live.mp live) file
  have reachable' : Reachable rootFrn (ix.optimizeStorage capacity) := .step (.optimizeStorage capacity) reachable trivial
  refine ⟨same.pathOf, fun req fast _ _ schedule schedule' => ?_⟩
  rw [pageRefs_eq_scanPage same.ok same.tidy (bearing_of_presentable reachable presentable) req fast schedule,
    pageRefs_eq_scanPage same.ok' same.tidy' (bearing_of_presentable reachable' presentable') req fast schedule']
  exact scan_restored same (.inr presentable) req

omit [Externals] in
theorem gate_opened (changed : ix.pruneCycleSuspects.mayHaveUnpresentable ≠ ix.mayHaveUnpresentable) :
    ix.mayHaveUnpresentable = true ∧ ix.pruneCycleSuspects.mayHaveUnpresentable = false := by
  have orphans : ix.pruneCycleSuspects.hasOrphans = ix.hasOrphans := rfl
  unfold mayHaveUnpresentable at changed ⊢
  rw [orphans] at changed ⊢
  cases held : ix.hasOrphans with
  | true => simp [held] at changed
  | false =>
    cases suspects : ix.cycleSuspects with
    | nil => simp [held, hasParentCycle, pruneCycleSuspects, suspects] at changed
    | cons first rest =>
      simp [held, hasParentCycle, suspects] at changed ⊢
      exact changed

omit [Externals] in
def Schedule.single (names : Nat) : Schedule names 1 where
  pos := Nat.one_pos
  buffers := [range (chunkCount 1 names)]
  covers := by simp

/-- Upkeep shows exactly where pruning the suspects of cycles opens the gate to entries that have no path. -/
theorem upkeep_invisible (reachable : Reachable rootFrn ix) :
    Invisible ix ↔ (ix.pruneCycleSuspects.mayHaveUnpresentable = ix.mayHaveUnpresentable ∨ Presentable ix) := by
  have ok := reachable.invariant.integrity
  have tidy := reachable.tidy
  constructor
  · intro invisible
    by_contra neither
    push Not at neither
    obtain ⟨changed, unshown⟩ := neither
    obtain ⟨closed, opened⟩ := gate_opened changed
    have same := restored_optimized reachable 0
    have plain := (gate_optimized ix 0).trans opened
    -- the query without terms counts every file after the prune, and those with a path before it
    have all : passes (ix.optimizeStorage 0) = fun e => !ix.isSynthetic e := by
      funext e
      rw [passes, plain, same.isSynthetic]
      simp
    have kept : ∀ e, passes ix e = true → (!ix.isSynthetic e) = true := by
      intro e passed
      exact (Bool.and_eq_true_iff.mp passed).1
    have totals := congrArg RefOutcome.total ((invisible.optimize 0).pages allBySize false (Schedule.single _) (Schedule.single _))
    have count : ∀ (ix : VolumeIndex) (schedule : Schedule ix.names.ids 1),
        (allBySize.pageRefs ix schedule false).total = (ix.entries.iterLive.filter (passes ix)).length := by
      intro ix schedule
      show (scan ix allBySize.parsed allBySize.compiled (allBySize.scopeIn ix)).quiet.length = _
      rw [quiet_scan_everything, length_map]
    rw [count, count, all, same.iterLive] at totals
    apply unshown
    intro e live file
    have narrowed : ix.entries.iterLive.filter (passes ix) =
        (ix.entries.iterLive.filter fun e => !ix.isSynthetic e).filter (passes ix) := by
      rw [filter_filter]
      apply filter_congr
      intro e _
      cases passed : passes ix e with
      | false => rfl
      | true => rw [kept e passed]; rfl
    rw [narrowed, eq_comm, length_filter_eq_length_iff] at totals
    have passed := totals e (mem_filter.mpr ⟨(EntryTable.mem_iterLive ok.slots).mpr live, by simp [file]⟩)
    rw [passes, file, closed] at passed
    simp only [Bool.not_false, Bool.not_true, Bool.false_or, Bool.true_and, Option.any_eq_true, decide_eq_true_eq] at passed
    exact passed
  · intro gate
    constructor
    · exact sameAnswers_restored (restored_resorted ok tidy .merge ix.byFrn) rfl
    · intro plan planned
      unfold planCompaction at planned
      split at planned
      · rw [← Option.some.inj planned]
        exact sameAnswers_restored (restored_compacted ok tidy) rfl
      · cases planned
    · intro capacity
      rcases gate with agree | presentable
      · exact sameAnswers_restored (restored_optimized reachable capacity) ((gate_optimized ix capacity).trans agree)
      · exact sameAnswers_of_presentable reachable presentable capacity

omit [Externals] in
theorem folderIndex_upkept :
    letI := ascii
    folderIndex.pruneCycleSuspects.mayHaveUnpresentable = folderIndex.mayHaveUnpresentable ∧ Invisible folderIndex := by
  let _ := ascii
  have agree : folderIndex.pruneCycleSuspects.mayHaveUnpresentable = folderIndex.mayHaveUnpresentable := by decide
  exact ⟨agree, (upkeep_invisible reachable_folderIndex).mpr (.inl agree)⟩

theorem reachable_insertAll (reachable : Reachable rootFrn ix) (records : List ParsedUsnRecord) :
    Reachable rootFrn (records.foldl insertEnum ix) := by
  induction records generalizing ix with
  | nil => exact reachable
  | cons rec rest ih => exact ih (.step (.insertEnum rec) reachable trivial)

omit [Externals] in
/-- A root in a folder of its own, and below it folder 8, which was moved into folder 9 and back. -/
def healedIndex : VolumeIndex :=
  letI := ascii
  [{ rootRecord with parentFrn := upperRecord.frn }, upperRecord,
    childRecord 0x0005000000000005 0x0001000000000008 fileAttributeDirectory [0x78],
    childRecord 0x0001000000000008 0x0001000000000009 fileAttributeDirectory [0x79],
    childRecord 0x0001000000000009 0x0001000000000008 fileAttributeDirectory [0x78],
    childRecord 0x0005000000000005 0x0001000000000008 fileAttributeDirectory [0x78]].foldl insertEnum (new ntfsRootFrn (.sparse []))

omit [Externals] in
/-- The healed suspect is all that kept the pathless folders out of the answer. -/
theorem healedIndex_shown :
    letI := ascii
    Reachable ntfsRootFrn healedIndex ∧
      (allBySize.pageRefs healedIndex (.single _) false).total = 0 ∧
      (allBySize.pageRefs (healedIndex.optimizeStorage 0) (.single _) false).total = 3 := by
  let _ := ascii
  exact ⟨reachable_insertAll (.new fun _ => rfl) _, by decide +kernel, by decide +kernel⟩

end Goz.Query
