import Goz.Index.Relocation
import Goz.Query.NameLevel
import Goz.Query.PathWalk

namespace Goz.VolumeIndex.Restored

open Query List FolderPaths

variable {ix ix' : VolumeIndex} {move : NameId → NameId} {e : EntryIdx} {parsed : ParsedQuery}
variable {compiled : CompiledQuery} {needle : Bytes}

section Reads

variable [Externals] {id : NameId} (same : Restored move ix ix')
include same

theorem isSynthetic : ix'.isSynthetic = ix.isSynthetic := by
  funext e
  rw [VolumeIndex.isSynthetic, VolumeIndex.isSynthetic, same.root, same.lostFound, same.entries]

theorem isDir : ix'.isDir = ix.isDir := by
  funext e
  rw [VolumeIndex.isDir, VolumeIndex.isDir, same.entries]

theorem sizeAt : ix'.sizeAt = ix.sizeAt := by
  funext e
  rw [VolumeIndex.sizeAt, VolumeIndex.sizeAt, same.entries]

theorem mtimeAt : ix'.mtimeAt = ix.mtimeAt := by
  funext e
  rw [VolumeIndex.mtimeAt, VolumeIndex.mtimeAt, same.entries]

theorem columnsMatch : columnsMatch ix' = columnsMatch ix := by
  funext filters e
  simp only [Query.columnsMatch, same.isDir, same.sizeAt, same.mtimeAt]

theorem iterLive : ix'.entries.iterLive = ix.entries.iterLive := by
  rw [same.entries]
  rfl

theorem scopeWalk (scope : EntryIdx) (memo : EntryIdx → Option Bool) (hops : Nat) (cur : EntryIdx) (chain : List EntryIdx) :
    scopeWalk ix' scope memo hops cur chain = scopeWalk ix scope memo hops cur chain := by
  induction hops generalizing cur chain with
  | zero =>
    unfold Query.scopeWalk
    rw [same.parent]
  | succ hops ih =>
    unfold Query.scopeWalk
    simp only [same.parent, ih]

theorem inScope : inScope ix' = inScope ix := by
  funext node scope memo
  simp only [Query.inScope, same.scopeWalk]

theorem climb (fp : FolderPaths) (hops : Nat) (cur : EntryIdx) (chain : List EntryIdx) :
    fp.climb ix' hops cur chain = fp.climb ix hops cur chain := by
  induction hops generalizing cur chain with
  | zero => simp only [FolderPaths.climb]
  | succ hops ih => simp only [FolderPaths.climb, same.parent, same.lostFound, ih]

theorem walkStartsAt (tops : List EntryIdx) (hops : Nat) (cur : EntryIdx) :
    walkStartsAt ix' tops hops cur = walkStartsAt ix tops hops cur := by
  induction hops generalizing cur with
  | zero => rfl
  | succ hops ih => simp only [Query.walkStartsAt, same.parent, same.lostFound, ih]

theorem firstChild : ix'.entries.firstChild = ix.entries.firstChild := by
  rw [same.entries]

theorem nextChild : ix'.entries.nextChild = ix.entries.nextChild := by
  rw [same.entries]

theorem climbBack (root : EntryIdx) (depth : Nat) (at_ : EntryIdx) : climbBack ix' root depth at_ = climbBack ix root depth at_ := by
  induction depth generalizing at_ with
  | zero =>
    unfold Query.climbBack
    rw [same.nextChild]
  | succ depth ih =>
    unfold Query.climbBack
    cases depth with
    | zero => rw [same.nextChild]
    | succ depth => simp only [same.nextChild, same.parent, ih]

theorem subtreeEntries : subtreeEntries ix' = subtreeEntries ix := by
  have items : ∀ root count walk, SubtreeWalk.items ix' root count walk = SubtreeWalk.items ix root count walk := by
    intro root count
    induction count with
    | zero => exact fun _ => rfl
    | succ count ih =>
      intro walk
      simp only [SubtreeWalk.items, SubtreeWalk.advance, same.firstChild, same.climbBack, ih]
  funext root count
  rw [Query.subtreeEntries, Query.subtreeEntries, items, same.firstChild]

theorem nameBytes (live : ix.Live e) (folded : Bool) :
    Query.nameBytes ix' (ix'.entries.nameId e) folded = Query.nameBytes ix (ix.entries.nameId e) folded := by
  unfold Query.nameBytes
  rw [same.nameId e live, same.names.raw _ (same.ok.name_live live), same.names.folded _ (same.ok.name_live live)]

theorem nameMatches (live : ix.names.Live id) : nameMatches ix' parsed compiled (move id) = nameMatches ix parsed compiled id := by
  unfold Query.nameMatches Query.nameBytes
  rw [same.names.raw id live, same.names.folded id live]

end Reads

section Paths

variable [Externals] {chain : List EntryIdx}

theorem live_of_climb (ok : ix.Integrity) {fp : FolderPaths} {hops : Nat} {cur : EntryIdx} {passed : List EntryIdx}
    {known : Option Query.Folder} (live : ix.Live cur) (above : ∀ x ∈ chain, ix.Live x)
    (climbed : fp.climb ix hops cur chain = some (known, passed)) : ∀ x ∈ passed, ix.Live x := by
  induction hops generalizing cur chain with
  | zero =>
    unfold FolderPaths.climb at climbed
    split at climbed
    · cases climbed
      exact above
    · cases climbed
  | succ hops ih =>
    unfold FolderPaths.climb at climbed
    split at climbed
    · cases climbed
      exact above
    · dsimp only at climbed
      cases up : ix.entries.parent cur with
      | none =>
        rw [up] at climbed
        cases climbed
        exact forall_mem_cons.mpr ⟨live, above⟩
      | some parent =>
        rw [up] at climbed
        exact ih (ok.parent_live cur parent live up) (forall_mem_cons.mpr ⟨live, above⟩) climbed

variable (same : Restored move ix ix')
include same

theorem descend (live : ∀ x ∈ chain, ix.Live x) (fp : FolderPaths) (depth : Nat) :
    descend ix' chain fp depth = descend ix chain fp depth := by
  induction chain generalizing fp depth with
  | nil => rfl
  | cons folder rest ih =>
    unfold FolderPaths.descend
    rw [same.nameBytes (live folder mem_cons_self)]
    simp only [ih fun x mem => live x (mem_cons_of_mem _ mem)]

theorem build {dir : Option EntryIdx} (live : ∀ d ∈ dir, ix.Live d) (fp : FolderPaths) : fp.build ix' dir = fp.build ix dir := by
  cases dir with
  | none => rfl
  | some dir =>
    unfold FolderPaths.build
    simp only [same.climb]
    split
    · rfl
    · rfl
    case h_3 climbed => exact same.descend (live_of_climb same.ok (live dir rfl) (by simp) climbed) _ _

theorem load (live : ix.Live e) (fp : FolderPaths) :
    fp.load ix' (ix.entries.parent e) = fp.load ix (ix.entries.parent e) := by
  have above : ∀ d ∈ ix.entries.parent e, ix.Live d := fun d at_ => same.ok.parent_live e d live at_
  unfold FolderPaths.load
  simp only [same.build above]

theorem fullPathMatches (live : ix.Live e) (fp : FolderPaths) :
    fp.fullPathMatches ix' parsed compiled e = fp.fullPathMatches ix parsed compiled e := by
  unfold FolderPaths.fullPathMatches FolderPaths.withFullPath
  simp only [same.parent, same.load live, same.nameBytes live]

end Paths

end Goz.VolumeIndex.Restored

namespace Goz.Query

open VolumeIndex List

variable {st' st : Searching} {entries : List EntryIdx}

section Alike

def Presentable (ix : VolumeIndex) : Prop :=
  ∀ e, ix.Live e → ix.isSynthetic e = false → ∃ p, ix.entries.parent e = some p ∧ (ix.pathOf p []).1 = .ok

def KnowsPaths (ix : VolumeIndex) (memo : EntryIdx → Option (Option Bytes)) : Prop :=
  ∀ p known, memo p = some known → known.isSome = decide ((ix.pathOf p []).1 = .ok)

structure Memos.Alike (ix : VolumeIndex) (m m' : Memos) : Prop where
  scopeMemo : m'.scopeMemo = m.scopeMemo
  folders : m'.folders = m.folders
  paths : KnowsPaths ix m.dirPaths
  paths' : KnowsPaths ix m'.dirPaths

/-- Searches that have found the same live entries and go on alike. -/
structure Searching.Alike (ix : VolumeIndex) (st st' : Searching) : Prop where
  memos : st.memos.Alike ix st'.memos
  watch : st'.watch = st.watch
  candidates : st'.candidates = st.candidates
  live : ∀ c ∈ st.candidates, ix.Live c.idx

variable {p : EntryIdx} {memo : EntryIdx → Option (Option Bytes)}

theorem KnowsPaths.parentPath (knows : KnowsPaths ix memo) (p : EntryIdx) :
    (parentPath ix p memo).1.isSome = decide ((ix.pathOf p []).1 = .ok) ∧ KnowsPaths ix (parentPath ix p memo).2 := by
  unfold Query.parentPath
  cases held : memo p with
  | some known => exact ⟨knows p known held, knows⟩
  | none =>
    dsimp only
    have asked : (if (ix.pathOf p []).1 = .ok then some (ix.pathOf p []).2 else none).isSome = decide ((ix.pathOf p []).1 = .ok) := by
      split <;> simp_all
    refine ⟨asked, fun q known at_ => ?_⟩
    by_cases same : q = p
    · rw [same, Function.update_self] at at_
      rw [same, ← Option.some.inj at_, asked]
    · rw [Function.update_of_ne same] at at_
      exact knows q known at_

theorem quiet_pathTest_bare {m : Memos} (bare : m.folders = none) (knows : KnowsPaths ix m.dirPaths) (parsed : ParsedQuery)
    (compiled : CompiledQuery) (e : EntryIdx) : ∃ paths, KnowsPaths ix paths ∧ (m.pathTest ix parsed compiled e).quiet =
      (!ix.mayHaveUnpresentable || (ix.entries.parent e).any fun p => decide ((ix.pathOf p []).1 = .ok), { m with dirPaths := paths }) := by
  obtain ⟨scopeMemo, dirPaths, folders⟩ := m
  obtain rfl : folders = none := bare
  unfold Memos.pathTest
  cases gated : ix.mayHaveUnpresentable with
  | false => exact ⟨dirPaths, knows, by simp⟩
  | true =>
    cases ix.entries.parent e with
    | none => exact ⟨dirPaths, knows, by simp⟩
    | some p => exact ⟨_, (knows.parentPath p).2, by simp [(knows.parentPath p).1]⟩

theorem Presentable.any_parent (presentable : Presentable ix) (live : ix.Live e) (file : ix.isSynthetic e = false) :
    ((ix.entries.parent e).any fun p => decide ((ix.pathOf p []).1 = .ok)) = true := by
  obtain ⟨p, at_, shown⟩ := presentable e live file
  simp [at_, shown]

variable [Externals] {m m' : Memos} (same : Restored move ix ix')
variable (gate : ix'.mayHaveUnpresentable = ix.mayHaveUnpresentable ∨ Presentable ix)

theorem idx_of_evaluate {scope : Option EntryIdx} {decided : Bool} {c : Candidate}
    (found : c ∈ (evaluate ix parsed compiled scope decided m e).quiet.1) : c.idx = e := by
  unfold evaluate at found
  simp only [Asking.quiet_ite, Asking.quiet_bind, Asking.quiet_pure] at found
  split at found
  · split at found
    · split at found
      · dsimp only at found
        split at found
        · exact congrArg Candidate.idx (Option.some.inj found).symm
        · cases found
      · cases found
    · cases found
  · cases found

include same

theorem knowsPaths_restored : KnowsPaths ix' memo ↔ KnowsPaths ix memo := by
  simp only [KnowsPaths, same.pathOf]

include gate

theorem Memos.Alike.pathTest (alike : m.Alike ix m') (live : ix.Live e) (file : ix.isSynthetic e = false) (parsed : ParsedQuery)
    (compiled : CompiledQuery) :
    (m'.pathTest ix' parsed compiled e).quiet.1 = (m.pathTest ix parsed compiled e).quiet.1 ∧
      Memos.Alike ix (m.pathTest ix parsed compiled e).quiet.2 (m'.pathTest ix' parsed compiled e).quiet.2 := by
  cases folders : m.folders with
  | some held =>
    unfold Memos.pathTest
    rw [alike.folders, folders]
    simp only [same.fullPathMatches live, bind_pure_comp, Asking.quiet_map, true_and]
    exact ⟨alike.scopeMemo, rfl, alike.paths, alike.paths'⟩
  | none =>
    obtain ⟨paths, knows, tested⟩ := quiet_pathTest_bare folders alike.paths parsed compiled e
    obtain ⟨paths', knows', tested'⟩ :=
      quiet_pathTest_bare (alike.folders.trans folders) ((knowsPaths_restored same).mpr alike.paths') parsed compiled e
    rw [tested, tested', same.parent]
    simp only [same.pathOf]
    refine ⟨?_, alike.scopeMemo, alike.folders, knows, (knowsPaths_restored same).mp knows'⟩
    rcases gate with agree | presentable
    · rw [agree]
    · rw [presentable.any_parent live file, Bool.or_true, Bool.or_true]

theorem Memos.Alike.evaluate (alike : m.Alike ix m') (live : ix.Live e) (file : ix.isSynthetic e = false) (scope : Option EntryIdx)
    (decided : Bool) :
    (evaluate ix' parsed compiled scope decided m' e).quiet.1 = (evaluate ix parsed compiled scope decided m e).quiet.1 ∧
      Memos.Alike ix (evaluate ix parsed compiled scope decided m e).quiet.2 (evaluate ix' parsed compiled scope decided m' e).quiet.2 := by
  have named : nameTest ix' parsed compiled decided e = nameTest ix parsed compiled decided e := by
    unfold nameTest
    rw [same.nameId e live, same.nameMatches (same.ok.name_live live)]
  have inside : (m'.scopeTest ix' e scope).1 = (m.scopeTest ix e scope).1 ∧
      Memos.Alike ix (m.scopeTest ix e scope).2 (m'.scopeTest ix' e scope).2 := by
    cases scope with
    | none => exact ⟨rfl, alike⟩
    | some scope =>
      unfold Memos.scopeTest
      simp only [same.inScope, alike.scopeMemo, true_and]
      exact ⟨rfl, alike.folders, alike.paths, alike.paths'⟩
  have tested := inside.2.pathTest same gate live file parsed compiled
  unfold Query.evaluate
  simp only [named, same.columnsMatch, inside.1, Asking.quiet_ite, Asking.quiet_bind, Asking.quiet_pure]
  split
  · split
    · split
      · exact ⟨by rw [tested.1], tested.2⟩
      · exact ⟨rfl, inside.2⟩
    · exact ⟨rfl, alike⟩
  · exact ⟨rfl, alike⟩

theorem Searching.Alike.consult (alike : st.Alike ix st') (live : ix.Live e) (scope : Option EntryIdx)
    (decided : Bool) :
    Searching.Alike ix (consult ix parsed compiled scope decided st e).quiet (consult ix' parsed compiled scope decided st' e).quiet := by
  unfold Query.consult
  rw [same.isSynthetic]
  cases file : ix.isSynthetic e with
  | true => exact alike
  | false =>
    obtain ⟨found, memos⟩ := alike.memos.evaluate same gate live file scope decided
    simp only [Bool.false_eq_true, if_false, bind_pure_comp, Asking.quiet_map]
    refine ⟨memos, alike.watch, by rw [found, alike.candidates], fun c mem => ?_⟩
    rcases mem_append.mp mem with before | new
    · exact alike.live c before
    · rw [idx_of_evaluate (Option.mem_toList.mp new)]
      exact live

theorem Searching.Alike.consultEach (alike : st.Alike ix st') (live : ∀ x ∈ entries, ix.Live x)
    (scope : Option EntryIdx) (decided : Bool) : Searching.Alike ix (consultEach ix parsed compiled scope decided entries st).quiet
      (consultEach ix' parsed compiled scope decided entries st').quiet := by
  induction entries generalizing st st' with
  | nil => exact alike
  | cons idx rest ih =>
    unfold Query.consultEach
    simp only [Asking.quiet_bind, Watch.quiet_tick, Bool.false_eq_true, if_false]
    have ticked : Searching.Alike ix { st with watch := st.watch.tick.quiet.2 } { st' with watch := st'.watch.tick.quiet.2 } :=
      ⟨alike.memos, by rw [alike.watch], alike.candidates, alike.live⟩
    exact ih (ticked.consult same gate (live idx mem_cons_self) scope decided) fun x mem => live x (mem_cons_of_mem _ mem)

end Alike

section Hits

variable [Externals] {s : NameStore}

theorem prefilterHits_kept (tidy : s.Tidy) (nonempty : needle ≠ []) :
    prefilterHits s needle = (s.keptBelow s.ids).filter fun id => 0 ∉ needle ∧ needle <:+: s.foldedBytesOf id := by
  rw [prefilterHits, prefilterHitsIn_eq tidy.wf.laid nonempty le_rfl, NameStore.keptBelow, filter_filter, Nat.sub_zero,
    ← range_eq_range']
  apply filter_congr
  intro id below
  by_cases held : 0 ∉ needle ∧ needle <:+: s.foldedBytesOf id
  · have live := Tidy.live_of_infix tidy held.1 nonempty (mem_range.mp below) held.2
    simp [held, show s.refcount id > 0 from live]
  · simp [held]

theorem live_of_hit (tidy : s.Tidy) (nonempty : needle ≠ []) {id : NameId}
    (hit : id ∈ prefilterHits s needle) : s.Live id := by
  rw [prefilterHits_kept tidy nonempty] at hit
  exact (NameStore.mem_keptBelow.mp (mem_filter.mp hit).1).2

variable (same : Restored move ix ix')
include same

theorem filter_kept_restored {p p' : NameId → Bool} (agree : ∀ id, ix.names.Live id → p' (move id) = p id) :
    (ix'.names.keptBelow ix'.names.ids).filter p' = ((ix.names.keptBelow ix.names.ids).filter p).map move := by
  rw [same.names.kept, filter_map]
  congr 1
  exact filter_congr fun id mem => agree id (NameStore.mem_keptBelow.mp mem).2

theorem prefilterHits_restored (nonempty : needle ≠ []) :
    prefilterHits ix'.names needle = (prefilterHits ix.names needle).map move := by
  rw [prefilterHits_kept same.tidy' nonempty, prefilterHits_kept same.tidy nonempty]
  exact filter_kept_restored same fun id live => by rw [same.names.folded id live]

theorem scanCost_restored (nonempty : ∀ needle, driver parsed compiled = some needle → needle ≠ []) :
    scanCost ix' parsed compiled = ((scanCost ix parsed compiled).1, (scanCost ix parsed compiled).2.map (List.map move)) := by
  unfold scanCost
  cases driven : driver parsed compiled with
  | none => rw [same.entries]; rfl
  | some needle =>
    simp only [prefilterHits_restored same (nonempty needle driven), foldl_map, Option.map_some, Prod.mk.injEq, and_true]
    apply foldl_ext
    intro entries id hit
    rw [same.names.refcount id (live_of_hit same.tidy (nonempty needle driven) hit)]

theorem bearers_restored (nonempty : needle ≠ []) (maxVisits : Nat) : bearers ix' needle maxVisits = bearers ix needle maxVisits := by
  unfold bearers
  rw [prefilterHits_restored same nonempty, foldl_map]
  apply foldl_ext
  intro found id hit
  have live := live_of_hit same.tidy nonempty hit
  rw [same.names.refcount id live, same.nameChain live]

end Hits

variable {walk' walk : PathWalk Searching} {piece : Bytes}

structure ScopeWalk.Alike (move : NameId → NameId) (ix : VolumeIndex) (walk walk' : ScopeWalk) : Prop where
  search : walk.search.Alike ix walk'.search
  visited : walk'.visited = walk.visited
  cap : walk'.cap = walk.cap
  priced : walk'.priced = walk.priced
  done : walk'.done = walk.done
  hits : walk'.hits = walk.hits.map (List.map move)
  live : ∀ ids ∈ walk.hits, ∀ id ∈ ids, ix.names.Live id

structure PathWalk.Alike (ix : VolumeIndex) (walk walk' : PathWalk Searching) : Prop where
  state : walk.state.Alike ix walk'.state
  watch : walk'.watch = walk.watch
  visited : walk'.visited = walk.visited
  outcome : walk'.outcome = walk.outcome

variable [Externals]

omit [Externals] in
theorem Searching.Alike.cleared (alike : st.Alike ix st') :
    Searching.Alike ix { st with candidates := [] } { st' with candidates := [] } :=
  ⟨alike.memos, alike.watch, rfl, by simp⟩

theorem live_of_subtree (ok : ix.Integrity) {root : EntryIdx} {count : Nat} : ∀ x ∈ subtreeEntries ix root count, ix.Live x := by
  intro x mem
  obtain ⟨d, under⟩ := under_of_subtree ok mem
  exact under.live

theorem compile_pathPiece_ne_nil {mount : Bytes} (found : (compile parsed mount).pathPiece = some piece) : piece ≠ [] := by
  have considered : ∀ (list : List Bytes) (seen : Bytes) (best : Option Bytes), (∀ b ∈ best, b ≠ []) →
      ∀ b ∈ list.foldl (considerPiece seen) best, b ≠ [] := by
    intro list seen
    induction list with
    | nil => exact fun _ held => held
    | cons first rest ih =>
      intro best held
      apply ih
      intro b chosen
      unfold considerPiece at chosen
      split at chosen
      case isTrue fits =>
        rw [← Option.some.inj chosen]
        simp_all
      · exact held b chosen
  unfold compile at found
  dsimp only at found
  split at found
  · cases found
  · unfold pathPiece at found
    split at found
    · cases found
    · exact considered _ _ none (by simp) piece found

variable (same : Restored move ix ix') (gate : ix'.mayHaveUnpresentable = ix.mayHaveUnpresentable ∨ Presentable ix)
include same

theorem ScopeWalk.Alike.weigh {walk walk' : ScopeWalk} (alike : walk.Alike move ix walk')
    (nonempty : ∀ needle, driver parsed compiled = some needle → needle ≠ []) :
    ScopeWalk.Alike move ix (walk.weigh ix parsed compiled) (walk'.weigh ix' parsed compiled) := by
  unfold ScopeWalk.weigh
  rw [alike.visited, alike.cap, alike.priced, scanCost_restored same nonempty]
  split
  · refine ⟨alike.search, rfl, rfl, rfl, alike.done, rfl, fun ids found id hit => ?_⟩
    dsimp only at found
    unfold scanCost at found
    cases driven : driver parsed compiled with
    | none => simp [driven] at found
    | some needle =>
      simp only [driven, Option.mem_def, Option.some.injEq] at found
      exact live_of_hit same.tidy (nonempty needle driven) (found ▸ hit)
  · exact alike

include gate

theorem ScopeWalk.Alike.walkScope (live : ∀ x ∈ entries, ix.Live x) {walk walk' : ScopeWalk}
    (alike : walk.Alike move ix walk') (nonempty : ∀ needle, driver parsed compiled = some needle → needle ≠ []) :
    ScopeWalk.Alike move ix (walkScope ix parsed compiled entries walk).quiet (walkScope ix' parsed compiled entries walk').quiet := by
  induction entries generalizing walk walk' with
  | nil => exact alike
  | cons idx rest ih =>
    have stepped : ScopeWalk.Alike move ix { walk with visited := walk.visited + 1 } { walk' with visited := walk'.visited + 1 } :=
      { alike with visited := by rw [alike.visited] }
    have weighed := stepped.weigh same nonempty
    unfold Query.walkScope
    dsimp only
    rw [weighed.visited, weighed.cap]
    split
    · exact { weighed with search := weighed.search.cleared, visited := rfl, cap := rfl, done := rfl }
    · simp only [Asking.quiet_bind, Watch.quiet_tick, Bool.false_eq_true, if_false]
      apply ih fun x mem => live x (mem_cons_of_mem _ mem)
      refine { weighed with search := Searching.Alike.consult same gate ?_ (live idx mem_cons_self) none false, visited := rfl, cap := rfl }
      exact ⟨weighed.search.memos, by rw [weighed.search.watch], weighed.search.candidates, weighed.search.live⟩

theorem PathWalk.Alike.walkBelow (parsed : ParsedQuery) (compiled : CompiledQuery) (scope : Option EntryIdx) (maxVisits : Nat) (live : ∀ x ∈ entries, ix.Live x) (alike : walk.Alike ix walk') :
    PathWalk.Alike ix (walkBelow (consult ix parsed compiled scope false) maxVisits entries walk).quiet
      (walkBelow (consult ix' parsed compiled scope false) maxVisits entries walk').quiet := by
  induction entries generalizing walk walk' with
  | nil => exact alike
  | cons idx rest ih =>
    unfold Query.walkBelow
    dsimp only
    rw [alike.visited]
    split
    · exact ⟨alike.state, alike.watch, rfl, rfl⟩
    · simp only [Asking.quiet_bind, Watch.quiet_tick, Bool.false_eq_true, if_false]
      apply ih fun x mem => live x (mem_cons_of_mem _ mem)
      exact ⟨alike.state.consult same gate (live idx mem_cons_self) scope false, by rw [alike.watch], rfl, alike.outcome⟩

theorem PathWalk.Alike.walkTops (parsed : ParsedQuery) (compiled : CompiledQuery) (scope : Option EntryIdx) (maxVisits : Nat)
    (tops : List EntryIdx) {rest : List EntryIdx} (live : ∀ x ∈ rest, ix.Live x) (alike : walk.Alike ix walk') :
    PathWalk.Alike ix (walkTops ix (consult ix parsed compiled scope false) maxVisits tops rest walk).quiet
      (walkTops ix' (consult ix' parsed compiled scope false) maxVisits tops rest walk').quiet := by
  induction rest generalizing walk walk' with
  | nil => exact ⟨alike.state, alike.watch, alike.visited, rfl⟩
  | cons top rest ih =>
    have later : ∀ x ∈ rest, ix.Live x := fun x mem => live x (mem_cons_of_mem _ mem)
    have ticked : PathWalk.Alike ix { walk with watch := walk.watch.tick.quiet.2 } { walk' with watch := walk'.watch.tick.quiet.2 } :=
      { alike with watch := by rw [alike.watch] }
    unfold Query.walkTops
    simp only [Asking.quiet_bind, Watch.quiet_tick, Bool.false_eq_true, if_false]
    rw [same.walkStartsAt, same.subtreeEntries]
    split
    · have entries : ∀ x ∈ top :: subtreeEntries ix top (maxVisits + 1), ix.Live x :=
        forall_mem_cons.mpr ⟨live top mem_cons_self, live_of_subtree same.ok⟩
      have below := ticked.walkBelow same gate parsed compiled scope maxVisits entries
      simp only [Asking.quiet_bind]
      rw [below.outcome]
      split
      · exact below
      · exact ih later below
    · exact ih later ticked

theorem walkBelowNames_alike (parsed : ParsedQuery) (compiled : CompiledQuery) (scope : Option EntryIdx) (nonempty : piece ≠ [])
    (maxVisits : Nat) (alike : st.Alike ix st') :
    (walkBelowNames ix' piece maxVisits (consult ix' parsed compiled scope false) st').quiet.1 =
        (walkBelowNames ix piece maxVisits (consult ix parsed compiled scope false) st).quiet.1 ∧
      Searching.Alike ix (walkBelowNames ix piece maxVisits (consult ix parsed compiled scope false) st).quiet.2
        (walkBelowNames ix' piece maxVisits (consult ix' parsed compiled scope false) st').quiet.2 := by
  unfold walkBelowNames
  dsimp only
  rw [bearers_restored same nonempty]
  split
  · exact ⟨rfl, alike⟩
  case isFalse few =>
    have live : ∀ x ∈ (bearers ix piece maxVisits).2.mergeSort, ix.Live x := by
      intro x mem
      have listed : (bearers ix piece maxVisits).2 = [] ++ _ := (foldl_bearers _ _).2 (Nat.le_of_not_lt few)
      rw [mem_mergeSort, listed, nil_append, mem_flatMap] at mem
      obtain ⟨id, -, borne⟩ := mem
      exact (((same.ok.nameChain id).2.1 x).mp borne).1
    have start : PathWalk.Alike ix ⟨st, Watch.new, 0, none⟩ ⟨st', Watch.new, 0, none⟩ := ⟨alike, rfl, rfl, rfl⟩
    have walked := start.walkTops same gate parsed compiled scope maxVisits (bearers ix piece maxVisits).2.mergeSort live
    simp only [bind_pure_comp, Asking.quiet_map]
    exact ⟨by rw [walked.outcome], walked.state⟩

variable (pieced : ∀ piece, compiled.pathPiece = some piece → piece ≠ [])
  (driven : ∀ needle, driver parsed compiled = some needle → needle ≠ [])
include pieced driven

theorem scanNames_alike (scope : Option EntryIdx) {hits : Option (List NameId)} (live : ∀ ids ∈ hits, ∀ id ∈ ids, ix.names.Live id) (alike : st.Alike ix st') :
    Searching.Alike ix (scanNames ix parsed compiled scope hits st).quiet
      (scanNames ix' parsed compiled scope (hits.map (List.map move)) st').quiet := by
  have all : ∀ {st st' : Searching}, st.Alike ix st' → Searching.Alike ix (scanAll ix parsed compiled scope st).quiet
      (scanAll ix' parsed compiled scope st').quiet := by
    intro st st' alike
    unfold scanAll
    rw [same.iterLive]
    exact alike.cleared.consultEach same gate (fun x mem => (EntryTable.mem_iterLive same.ok.slots).mp mem) scope false
  unfold scanNames
  cases searched : driver parsed compiled with
  | some needle =>
    have names : (hits.map (List.map move)).getD (prefilterHits ix'.names needle) =
        (hits.getD (prefilterHits ix.names needle)).map move := by
      cases hits with
      | none => exact prefilterHits_restored same (driven needle searched)
      | some ids => rfl
    have held : ∀ id ∈ hits.getD (prefilterHits ix.names needle), ix.names.Live id := by
      cases hits with
      | none => exact fun id hit => live_of_hit same.tidy (driven needle searched) hit
      | some ids => exact live ids rfl
    dsimp only
    rw [names, Asking.quiet_foldlM, Asking.quiet_foldlM, foldl_map]
    generalize hits.getD (prefilterHits ix.names needle) = ids at held
    induction ids generalizing st st' with
    | nil => exact alike
    | cons id rest ih =>
      have chain : ∀ x ∈ ix.nameChain id, ix.Live x := fun x borne => (((same.ok.nameChain id).2.1 x).mp borne).1
      rw [foldl_cons, foldl_cons, same.nameChain (held id mem_cons_self)]
      exact ih (alike.consultEach same gate chain scope compiled.prefilterDecidesName) fun x mem => held x (mem_cons_of_mem _ mem)
  | none =>
    cases walks : compiled.pathPiece with
    | none => exact all alike
    | some piece =>
      obtain ⟨outcome, walked⟩ := walkBelowNames_alike same gate parsed compiled scope (pieced piece walks)
        (ix.entries.live / pathWalkShare) alike
      have count : ix'.entries.live = ix.entries.live := by rw [same.entries]
      simp only [Asking.quiet_bind, count, outcome]
      split
      · exact walked
      · exact all walked

theorem scanWith_restored (scope : Option EntryIdx) (walkFloor : Nat) :
    (scanWith ix' parsed compiled scope walkFloor).quiet = (scanWith ix parsed compiled scope walkFloor).quiet ∧
      ∀ c ∈ (scanWith ix parsed compiled scope walkFloor).quiet, ix.Live c.idx := by
  have start : Searching.Alike ix ⟨.new ix parsed compiled, .new, []⟩ ⟨.new ix' parsed compiled, .new, []⟩ := by
    refine ⟨⟨rfl, ?_, nofun, nofun⟩, rfl, rfl, nofun⟩
    unfold Memos.new FolderPaths.new
    rw [same.root]
  unfold scanWith
  split
  case isFalse => exact ⟨rfl, nofun⟩
  case isTrue =>
    cases scope with
    | none =>
      have none_ : ∀ ids ∈ (none : Option (List NameId)), ∀ id ∈ ids, ix.names.Live id := nofun
      have scanned := scanNames_alike same gate pieced driven none none_ start
      simp only [bind_pure_comp, Asking.quiet_map]
      exact ⟨scanned.candidates, scanned.live⟩
    | some root =>
      dsimp only
      rw [same.subtreeEntries, scanCost_restored same driven]
      have begun : ScopeWalk.Alike move ix ⟨_, 0, walkFloor, false, none, true⟩ ⟨_, 0, walkFloor, false, none, true⟩ :=
        ⟨start, rfl, rfl, rfl, rfl, rfl, nofun⟩
      have entries : ∀ x ∈ subtreeEntries ix root (max walkFloor (scanCost ix parsed compiled).1 + 1), ix.Live x :=
        live_of_subtree same.ok
      have walked := begun.walkScope same gate entries driven
      simp only [Asking.quiet_bind]
      rw [walked.done]
      split
      · exact ⟨walked.search.candidates, walked.search.live⟩
      · have scanned := scanNames_alike same gate pieced driven (some root) walked.live walked.search
        rw [walked.hits]
        simp only [bind_pure_comp, Asking.quiet_map]
        exact ⟨scanned.candidates, scanned.live⟩

end Goz.Query
