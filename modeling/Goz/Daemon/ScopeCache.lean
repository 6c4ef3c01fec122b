import Goz.Query.NameLevel
import Goz.Query.PathTests
import Goz.Query.Resolve
import Goz.Query.Subtree

namespace Goz

open VolumeIndex Query Option Externals Function PageRequest

variable {ix : VolumeIndex} {e : EntryIdx} {rel : Bytes} {per : Nat}

section Slots

variable [Externals] {ix' : VolumeIndex} {touched : Frn → Prop}

theorem capacity_orphanFrom (fuel : Nat) (cur : Option EntryIdx) (ix : VolumeIndex) :
    (orphanFrom fuel cur ix).entries.capacity = ix.entries.capacity := by
  fun_induction orphanFrom fuel cur ix with
  | case1 => rfl
  | case2 => rfl
  | case3 ix fuel cur ih => exact ih

theorem capacity_removeEntry (ix : VolumeIndex) (idx : EntryIdx) : (ix.removeEntry idx).entries.capacity = ix.entries.capacity :=
  capacity_orphanFrom _ _ _

theorem VolumeIndex.Prim.capacity_le (step : Prim touched ix ix') : ix.entries.capacity ≤ ix'.entries.capacity := by
  cases step with
  | remove => exact (capacity_removeEntry _ _).ge
  | add =>
    show ix.entries.capacity ≤ if ix.entries.free.isEmpty then ix.entries.capacity + 1 else ix.entries.capacity
    split <;> omega
  | rewrite => exact le_rfl
  | relabel => exact le_rfl
  | prune => exact le_rfl
  | reorder => exact le_rfl
  | compact => exact le_rfl

theorem capacity_le_of_steps (steps : Steps touched ix ix') : ix.entries.capacity ≤ ix'.entries.capacity := by
  induction steps with
  | refl => exact le_rfl
  | tail _ step ih => exact ih.trans step.capacity_le

end Slots

section Cache

variable [Externals]

structure ScopeCache where
  rel : Bytes
  entry : EntryIdx

def scopeEntryValid (ix : VolumeIndex) (entry : EntryIdx) (rel : Bytes) : Bool :=
  let path := ix.pathOf entry []
  path.1 = .ok && fold path.2 = fold rel

def cachedScope (ix : VolumeIndex) (cache : Option ScopeCache) (rel : Bytes) (matchCase : Bool) : Option EntryIdx :=
  if matchCase then none
  else (cache.filter fun sc => sc.rel = rel && scopeEntryValid ix sc.entry rel).map ScopeCache.entry

def storeScope (cache : Option ScopeCache) (rel : Bytes) (matchCase : Bool) (found : Option EntryIdx) : Option ScopeCache :=
  match found with
  | none => cache
  | some entry => if matchCase then cache else some ⟨rel, entry⟩

/-- How far a query that holds the read lock of the index has come. -/
inductive ScopeReader
  | entered (rel : Bytes) (matchCase : Bool)
  | missed (rel : Bytes) (matchCase : Bool)
  | ready (rel : Bytes) (matchCase : Bool) (entry : Option EntryIdx)

/-- A volume with the queries that hold the read lock of its index. -/
structure ScopedVolume where
  index : VolumeIndex
  cache : Option ScopeCache
  readers : Nat → Option ScopeReader

namespace ScopedVolume

def reading (v : ScopedVolume) (q : Nat) (at_ : Option ScopeReader) : ScopedVolume :=
  { v with readers := update v.readers q at_ }

omit [Externals] in
theorem readers_reading (v : ScopedVolume) (q : Nat) (at_ : Option ScopeReader) : (v.reading q at_).readers q = at_ :=
  update_self ..

/-- What can happen to a volume. The cache has a lock of its own, so that each look and each store is one step; a query
    resolves its scope in the index it holds locked, in one step with the store. A writer waits for the readers. -/
inductive Step (rootFrn : Frn) (v : ScopedVolume) : ScopedVolume → Prop
  | enter (q : Nat) (rel : Bytes) (matchCase : Bool) (out : v.readers q = none) :
      Step rootFrn v (v.reading q (some (.entered rel matchCase)))
  | hit {q : Nat} {rel : Bytes} {matchCase : Bool} {entry : EntryIdx} (at_ : v.readers q = some (.entered rel matchCase))
      (found : cachedScope v.index v.cache rel matchCase = some entry) :
      Step rootFrn v (v.reading q (some (.ready rel matchCase (some entry))))
  | miss {q : Nat} {rel : Bytes} {matchCase : Bool} (at_ : v.readers q = some (.entered rel matchCase))
      (found : cachedScope v.index v.cache rel matchCase = none) :
      Step rootFrn v (v.reading q (some (.missed rel matchCase)))
  | resolve {q : Nat} {rel : Bytes} {matchCase : Bool} (at_ : v.readers q = some (.missed rel matchCase)) :
      Step rootFrn v { v.reading q (some (.ready rel matchCase (resolveScope v.index rel matchCase))) with
        cache := storeScope v.cache rel matchCase (resolveScope v.index rel matchCase) }
  | leave (q : Nat) : Step rootFrn v (v.reading q none)
  | write (op : IndexOp) (allowed : op.Allowed v.index) (alone : ∀ q, v.readers q = none) :
      Step rootFrn v { v with index := op.run v.index }
  | install {built : VolumeIndex} (reachable : Reachable rootFrn built) (alone : ∀ q, v.readers q = none) :
      Step rootFrn v { v with index := built, cache := none }

inductive Run (rootFrn : Frn) : ScopedVolume → Prop
  | start {ix : VolumeIndex} (reachable : Reachable rootFrn ix) : Run rootFrn ⟨ix, none, fun _ => none⟩
  | next {v v' : ScopedVolume} (before : Run rootFrn v) (step : Step rootFrn v v') : Run rootFrn v'

end ScopedVolume

end Cache

section Valid

variable [Externals] {names : List Bytes}

omit [Externals] in
theorem wellFormed_joined (whole : ∀ n ∈ names, Wtf8.WellFormed n) : Wtf8.WellFormed (names.foldl joinPath []) := by
  induction names using List.reverseRecOn with
  | nil => exact Wtf8.wellFormed_nil
  | append_singleton names name ih =>
    rw [List.foldl_append]
    exact wellFormed_joinPath (ih fun n mem => whole n (List.mem_append_left _ mem)) (whole name (by simp))

theorem sameComponents_of_fold (folds : FoldsComponents) (proper : ∀ n ∈ names, ProperComponent n)
    (whole : ∀ n ∈ names, Wtf8.WellFormed n) (wholeRel : Wtf8.WellFormed rel) (same : fold (names.foldl joinPath []) = fold rel) :
    SameComponents false rel (names.foldl joinPath []) := by
  have wholePath := wellFormed_joined whole
  have plain := plain_joined proper
  have plainRel : (0x2F : UInt8) ∉ rel := by
    intro inside
    rw [← folds.separators rel wholeRel _ rfl, ← same, folds.separators _ wholePath _ rfl] at inside
    exact plain inside
  show (scopeComponents rel).map fold = (scopeComponents (names.foldl joinPath [])).map fold
  rw [← scopeComponents_fold folds wholeRel plainRel, ← scopeComponents_fold folds wholePath plain, same]

structure OrdinaryNames (ix : VolumeIndex) : Prop where
  proper : ProperNames ix
  whole : NamesWellFormed ix
  single : NoTwins ix
  folders : OnlyFoldersHold ix

theorem resolveScope_of_valid (folds : FoldsComponents) (ok : ix.Integrity) (marked : ix.Marked) (ordinary : OrdinaryNames ix)
    (wholeRel : Wtf8.WellFormed rel) (valid : scopeEntryValid ix e rel = true) :
    resolveScope ix rel false = some e ∨
      (resolveScope ix rel false = none ∧ e ≠ ix.root ∧ (ix.entries.flags e).dir = false) := by
  simp only [scopeEntryValid, Bool.and_eq_true, decide_eq_true_eq] at valid
  obtain ⟨shown, same⟩ := valid
  obtain ⟨stands, names, named, short⟩ := named_of_pathOf ok shown
  rw [named.pathOf ok stands short] at same
  have components := sameComponents_of_fold folds (named.all stands.top ordinary.proper)
    (named.all stands.top fun e live _ => ordinary.whole e live) wholeRel same
  rw [SameComponents, scopeComponents_joined (named.all stands.top ordinary.proper)] at components
  by_cases folder : e ≠ ix.root → (ix.entries.flags e).dir = true
  · exact .inl (resolveScope_of_named ok marked ordinary.single ordinary.folders stands.top named folder components)
  · rw [Classical.not_imp, Bool.not_eq_true] at folder
    refine .inr ⟨?_, folder⟩
    apply eq_none_iff_forall_ne_some.mpr
    intro e' found
    obtain ⟨folder', names', named', same'⟩ := named_of_resolveScope ok found
    obtain rfl := named'.unique ok ordinary.single named (same'.trans components)
    exact absurd (folder' folder.1) (by simp [folder.2])

end Valid

section Hits

variable [Externals]

/-- What a volume adds to the answer of a query. A volume that lacks the folder of the scope is passed over. -/
def volumeHits (ix : VolumeIndex) (req : PageRequest) {per : Nat} (schedule : Schedule ix.names.ids per) (fast : Bool) :
    Option EntryIdx → RefOutcome
  | none => { total := 0, refs := [], totalSize := if req.sumSizes then some 0 else none }
  | some entry => { req with scope := some entry }.pageRefs ix schedule fast

theorem quiet_scan_childless (parsed : ParsedQuery) (compiled : CompiledQuery) (childless : ix.entries.firstChild e = none) :
    (scan ix parsed compiled (some e)).quiet = [] := by
  have nothing (count : Nat) : subtreeEntries ix e count = [] := by
    unfold subtreeEntries
    rw [childless]
    cases count <;> rfl
  unfold scan scanWith
  split
  · simp [nothing, walkScope]
  · rfl

theorem pageRefs_childless (req : PageRequest) (schedule : Schedule ix.names.ids per) (fast : Bool)
    (scope : req.scopeIn ix = some e) (childless : ix.entries.firstChild e = none) :
    req.pageRefs ix schedule fast = { total := 0, refs := [], totalSize := if req.sumSizes then some 0 else none } := by
  have way : req.route ix fast = .scan := by
    unfold route
    rw [scope]
    cases req.limit <;> simp [isNameLevel, topKApplies]
  unfold pageRefs
  rw [way]
  dsimp only
  rw [scope, quiet_scan_childless _ _ childless]
  cases limit : req.limit <;> simp [scanPage, pageBounds, limit, rowsOf, filesSize]

theorem volumeHits_childless (req : PageRequest) (schedule : Schedule ix.names.ids per) (fast : Bool) (notRoot : e ≠ ix.root)
    (childless : ix.entries.firstChild e = none) : volumeHits ix req schedule fast (some e) = volumeHits ix req schedule fast none :=
  pageRefs_childless _ schedule fast (by simp [scopeIn, notRoot]) childless

theorem OnlyFoldersHold.childless (folders : OnlyFoldersHold ix) (ok : ix.Integrity) (file : (ix.entries.flags e).dir = false) :
    ix.entries.firstChild e = none := by
  cases first : ix.entries.firstChild e with
  | none => rfl
  | some down =>
    obtain ⟨-, -, live, above, -⟩ := children_of_first ok first
    exact absurd (folders down e live above) (by simp [file])

end Hits

section Transparent

variable [Externals] {rootFrn : Frn} {v v' : ScopedVolume} {matchCase : Bool}

def ReadsInside (ix : VolumeIndex) (e : EntryIdx) : Prop :=
  e < ix.entries.capacity ∧ (ix.Live e → ∀ x ∈ ix.pathChain maxPathHops e, x < ix.entries.capacity)

theorem readsInside (ok : ix.Integrity) (inside : e < ix.entries.capacity) : ReadsInside ix e := by
  refine ⟨inside, fun live x mem => ?_⟩
  rw [pathChain_eq] at mem
  obtain ⟨k, -, way⟩ := Ascent.mem_trail mem
  exact ok.slots.live_lt x (ok.ascend_live live way)

theorem VolumeIndex.Reachable.root_lt (reachable : Reachable rootFrn ix) : ix.root < ix.entries.capacity := by
  rw [reachable.root_eq]
  induction reachable with
  | new empty => exact Nat.two_pos
  | step op before _ ih => exact ih.trans_le (capacity_le_of_steps (before.invariant.run op).steps)

theorem resolveScope_lt (reachable : Reachable rootFrn ix)
    (found : resolveScope ix rel matchCase = some e) : e < ix.entries.capacity := by
  have ok := reachable.invariant.integrity
  obtain ⟨-, names, named, -⟩ := named_of_resolveScope ok found
  cases named with
  | root => exact reachable.root_lt
  | child _ live _ => exact ok.slots.live_lt _ live

namespace ScopedVolume

/-- What a query may run under: what its scope resolves to now, or a cached entry that is valid now. -/
def Fresh (ix : VolumeIndex) (rel : Bytes) (matchCase : Bool) (entry : Option EntryIdx) : Prop :=
  entry = resolveScope ix rel matchCase ∨
    ∃ e, entry = some e ∧ matchCase = false ∧ e < ix.entries.capacity ∧ scopeEntryValid ix e rel = true

structure Sound (rootFrn : Frn) (v : ScopedVolume) : Prop where
  reachable : Reachable rootFrn v.index
  cached : ∀ sc, v.cache = some sc → sc.entry < v.index.entries.capacity
  ready : ∀ q rel matchCase entry, v.readers q = some (.ready rel matchCase entry) → Fresh v.index rel matchCase entry

theorem Sound.reading (sound : Sound rootFrn v) (q : Nat) {at_ : Option ScopeReader}
    (fresh : ∀ rel matchCase entry, at_ = some (.ready rel matchCase entry) → Fresh v.index rel matchCase entry) :
    Sound rootFrn (v.reading q at_) where
  reachable := sound.reachable
  cached := sound.cached
  ready := by
    intro r rel matchCase entry there
    change update v.readers q at_ r = _ at there
    by_cases same : r = q
    · rw [same, update_self] at there
      exact fresh rel matchCase entry there
    · rw [update_of_ne same] at there
      exact sound.ready r rel matchCase entry there

theorem cachedScope_some {cache : Option ScopeCache} (found : cachedScope ix cache rel matchCase = some e) :
    matchCase = false ∧ scopeEntryValid ix e rel = true ∧ cache = some ⟨rel, e⟩ := by
  unfold cachedScope at found
  split at found
  case isTrue => cases found
  case isFalse ignores =>
    obtain ⟨sc, kept, rfl⟩ := map_eq_some_iff.mp found
    obtain ⟨rfl, passes⟩ := filter_eq_some_iff.mp kept
    simp only [Bool.and_eq_true, decide_eq_true_eq] at passes
    obtain ⟨rfl, valid⟩ := passes
    exact ⟨by simpa using ignores, valid, rfl⟩

theorem Sound.step (sound : Sound rootFrn v) (step : Step rootFrn v v') : Sound rootFrn v' := by
  cases step with
  | enter q rel matchCase out => exact sound.reading q (by simp)
  | hit at_ found =>
    obtain ⟨ignores, valid, held⟩ := cachedScope_some found
    apply sound.reading
    rintro _ _ _ ⟨⟩
    exact .inr ⟨_, rfl, ignores, sound.cached _ held, valid⟩
  | miss at_ found => exact sound.reading _ (by simp)
  | @resolve q rel matchCase at_ =>
    have read : Sound rootFrn (v.reading q (some (.ready rel matchCase (resolveScope v.index rel matchCase)))) := by
      apply sound.reading
      rintro _ _ _ ⟨⟩
      exact .inl rfl
    refine ⟨read.reachable, fun sc stored => ?_, read.ready⟩
    change storeScope v.cache rel matchCase (resolveScope v.index rel matchCase) = some sc at stored
    unfold storeScope at stored
    split at stored
    case h_1 => exact sound.cached sc stored
    case h_2 entry found =>
      split at stored
      case isTrue => exact sound.cached sc stored
      case isFalse =>
        obtain rfl := some.inj stored
        exact resolveScope_lt sound.reachable found
  | leave q => exact sound.reading q (by simp)
  | write op allowed alone =>
    have grown := capacity_le_of_steps (sound.reachable.invariant.run op).steps
    refine ⟨.step op sound.reachable allowed, fun sc held => (sound.cached sc held).trans_le grown, fun q _ _ _ there => ?_⟩
    cases (alone q).symm.trans there
  | install reachable alone =>
    refine ⟨reachable, fun sc held => ?_, fun q _ _ _ there => ?_⟩
    · cases held
    · cases (alone q).symm.trans there

theorem Run.sound (run : Run rootFrn v) : Sound rootFrn v := by
  induction run with
  | start reachable =>
    refine ⟨reachable, fun sc held => ?_, fun q _ _ _ there => ?_⟩
    · cases held
    · cases there
  | next _ step ih => exact ih.step step

end ScopedVolume

theorem volumeHits_of_fresh (folds : FoldsComponents) (reachable : Reachable rootFrn ix) (ordinary : OrdinaryNames ix) {entry : Option EntryIdx} (whole : Wtf8.WellFormed rel) (fresh : ScopedVolume.Fresh ix rel matchCase entry)
    (req : PageRequest) (schedule : Schedule ix.names.ids per) (fast : Bool) :
    volumeHits ix req schedule fast entry = volumeHits ix req schedule fast (resolveScope ix rel matchCase) := by
  have ok := reachable.invariant.integrity
  rcases fresh with rfl | ⟨e, rfl, rfl, -, valid⟩
  · rfl
  rcases resolveScope_of_valid folds ok reachable.marked ordinary whole valid with same | ⟨nowhere, notRoot, file⟩
  · rw [same]
  · rw [nowhere, volumeHits_childless req schedule fast notRoot (ordinary.folders.childless ok file)]

/-- The scope cache shows in no answer, however queries and writes of the volume interleave. -/
theorem scope_cache_transparent (folds : FoldsComponents) (run : ScopedVolume.Run rootFrn v) :
    (∀ sc, v.cache = some sc → ReadsInside v.index sc.entry) ∧
    ∀ q rel matchCase entry, v.readers q = some (.ready rel matchCase entry) →
      (∀ e, entry = some e → ReadsInside v.index e) ∧
      (OrdinaryNames v.index → Wtf8.WellFormed rel →
        ∀ (req : PageRequest) (per : Nat) (schedule : Schedule v.index.names.ids per) (fast : Bool),
          volumeHits v.index req schedule fast entry = volumeHits v.index req schedule fast (resolveScope v.index rel matchCase)) := by
  have sound := run.sound
  have ok := sound.reachable.invariant.integrity
  refine ⟨fun sc held => readsInside ok (sound.cached sc held), fun q rel matchCase entry there => ?_⟩
  have fresh := sound.ready q rel matchCase entry there
  constructor
  · rintro e rfl
    rcases fresh with found | ⟨_, ⟨⟩, -, inside, -⟩
    · exact readsInside ok (resolveScope_lt sound.reachable found.symm)
    · exact readsInside ok inside
  · intro ordinary whole req per schedule fast
    exact volumeHits_of_fresh folds sound.reachable ordinary whole fresh req schedule fast

end Transparent

theorem folderIndex_ordinary : letI := ascii; OrdinaryNames folderIndex := by
  let _ := ascii
  have ok := reachable_folderIndex.invariant.integrity
  refine ⟨folderIndex_properNames, fun e live => ?_, noTwins_of_bounded ok (by decide +kernel), fun e p _ at_ => ?_⟩
  · have bound : e < 3 := ok.slots.live_lt e live
    have each : ∀ e < 3, ∀ b ∈ folderIndex.rawName e, b.toNat < 0x80 := by decide +kernel
    exact Wtf8.wellFormed_ascii (each e bound)
  · rw [folderIndex_parent] at at_
    split at at_
    · obtain rfl := some.inj at_
      decide +kernel
    · cases at_

open ScopedVolume in
/-- The second query for the scope `A` takes its folder from the cache. -/
theorem folderIndex_cached :
    letI := ascii
    ∃ v : ScopedVolume, ScopedVolume.Run ntfsRootFrn v ∧ v.cache = some ⟨[0x41], 2⟩ ∧ v.readers 1 = some (.ready [0x41] false (some 2)) ∧
      ReadsInside v.index 2 ∧ ∀ (req : PageRequest) (per : Nat) (schedule : Schedule v.index.names.ids per) (fast : Bool),
        volumeHits v.index req schedule fast (some 2) = volumeHits v.index req schedule fast (resolveScope v.index [0x41] false) := by
  let _ := ascii
  have found : resolveScope folderIndex [0x41] false = some 2 := by decide +kernel
  have entered : ScopedVolume.Run ntfsRootFrn _ := .next (.start reachable_folderIndex) (.enter 0 [0x41] false rfl)
  have missed := ScopedVolume.Run.next entered (.miss (readers_reading _ 0 _) rfl)
  have stored := ScopedVolume.Run.next missed (.resolve (readers_reading _ 0 _))
  have again := ScopedVolume.Run.next stored (.enter 1 [0x41] false rfl)
  have cached : storeScope none [0x41] false (resolveScope folderIndex [0x41] false) = some ⟨[0x41], 2⟩ := by rw [found]; rfl
  have hit := ScopedVolume.Run.next again (.hit (readers_reading _ 1 _) (by
    show cachedScope folderIndex (storeScope none [0x41] false (resolveScope folderIndex [0x41] false)) [0x41] false = some 2
    rw [cached]
    decide +kernel))
  have ready := (scope_cache_transparent foldsComponents_ascii hit).2 1 _ _ _ (readers_reading _ 1 _)
  exact ⟨_, hit, cached, readers_reading _ 1 _, ready.1 2 rfl, ready.2 folderIndex_ordinary (Wtf8.wellFormed_ascii (by decide +kernel))⟩

def nestedIndex : VolumeIndex :=
  letI := ascii
  (folderIndex.insertEnum { folderRecord with frn := ⟨0x0001000000000007⟩, parentFrn := folderRecord.frn, name := [0x62] }).insertEnum
    { folderRecord with frn := ⟨0x0001000000000008⟩, parentFrn := ⟨0x0001000000000007⟩, attributes := 0, name := [0x78] }

def renamedRecord : ParsedUsnRecord := { folderRecord with frn := ⟨0x0001000000000007⟩, name := [0x61, 0x5C, 0x62] }

def renamedIndex : VolumeIndex :=
  letI := ascii
  nestedIndex.insertEnum renamedRecord

def renamedChunk : Schedule renamedIndex.names.ids 1 where
  pos := Nat.one_pos
  buffers := [[0]]
  covers := by decide +kernel

open ScopedVolume in
/-- A name that holds a separator gives the moved folder the path its scope was cached by. -/
theorem renamedIndex_cached :
    letI := ascii
    ∃ v : ScopedVolume, Run ntfsRootFrn v ∧ v.index = renamedIndex ∧ NoTwins renamedIndex ∧ OnlyFoldersHold renamedIndex ∧
      v.readers 1 = some (.ready [0x61, 0x5C, 0x62] false (some 3)) ∧ resolveScope renamedIndex [0x61, 0x5C, 0x62] false = none ∧
      (volumeHits renamedIndex (allByName [0x78]) renamedChunk true (some 3)).total = 1 ∧
      (volumeHits renamedIndex (allByName [0x78]) renamedChunk true none).total = 0 := by
  let _ := ascii
  have nested : Reachable ntfsRootFrn nestedIndex := .step (.insertEnum _) (.step (.insertEnum _) reachable_folderIndex trivial) trivial
  have renamed : Reachable ntfsRootFrn renamedIndex := .step (.insertEnum _) nested trivial
  have folders : OnlyFoldersHold renamedIndex := by
    intro e p live at_
    have bound : e < 5 := renamed.invariant.integrity.slots.live_lt e live
    have each : ∀ e < 5, ∀ p < 5, renamedIndex.entries.parent e = some p → (renamedIndex.entries.flags p).dir = true := by decide +kernel
    exact each e bound p (renamed.invariant.integrity.slots.live_lt p (renamed.invariant.integrity.parent_live e p live at_)) at_
  have found : resolveScope nestedIndex [0x61, 0x5C, 0x62] false = some 3 := by decide +kernel
  have entered : Run ntfsRootFrn _ := .next (.start nested) (.enter 0 [0x61, 0x5C, 0x62] false rfl)
  have missed := entered.next (.miss (readers_reading _ 0 _) rfl)
  have stored := missed.next (.resolve (readers_reading _ 0 _))
  have left := stored.next (.leave 0)
  have moved := left.next (.write (.insertEnum renamedRecord) trivial fun q => by
    by_cases first : q = 0 <;> simp [reading, first])
  have again := moved.next (.enter 1 [0x61, 0x5C, 0x62] false rfl)
  have hit := again.next (.hit (readers_reading _ 1 _) (by
    show cachedScope renamedIndex (storeScope none [0x61, 0x5C, 0x62] false (resolveScope nestedIndex [0x61, 0x5C, 0x62] false))
      [0x61, 0x5C, 0x62] false = some 3
    rw [found]
    decide +kernel))
  refine ⟨_, hit, rfl, noTwins_of_bounded renamed.invariant.integrity (by decide +kernel), folders, readers_reading _ 1 _,
    by decide +kernel, by decide +kernel, by decide +kernel⟩

end Goz
