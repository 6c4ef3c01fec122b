import Goz.Query.FolderPaths
import Goz.Query.Prefilter

namespace Goz.Query

open VolumeIndex

/-- A matched entry, with the key that the sort of the page asks for. -/
structure Candidate where
  idx : EntryIdx
  key : Nat
  deriving DecidableEq, Repr

section Memo

/-- From `cur` up to the scope or to an entry whose verdict is known; the entries passed learn it. -/
def scopeWalk (ix : VolumeIndex) (scope : EntryIdx) (memo : EntryIdx → Option Bool) :
    Nat → EntryIdx → List EntryIdx → Bool × List EntryIdx
  | hops, cur, chain =>
    if cur = scope then (true, chain)
    else
      match memo cur with
      | some verdict => (verdict, chain)
      | none =>
        match ix.entries.parent cur with
        | none => (false, chain)
        | some parent =>
          match hops with
          | 0 => (false, cur :: chain)
          | hops + 1 => scopeWalk ix scope memo hops parent (cur :: chain)

def inScope (ix : VolumeIndex) (node scope : EntryIdx) (memo : EntryIdx → Option Bool) :
    Bool × (EntryIdx → Option Bool) :=
  if node = scope then (false, memo)
  else
    let walked := scopeWalk ix scope memo 4096 node []
    (walked.1, fun e => if e ∈ walked.2 then some walked.1 else memo e)

def parentPath (ix : VolumeIndex) (parent : EntryIdx) (memo : EntryIdx → Option (Option Bytes)) :
    Option Bytes × (EntryIdx → Option (Option Bytes)) :=
  match memo parent with
  | some known => (known, memo)
  | none =>
    let path := ix.pathOf parent []
    let known := if path.1 = .ok then some path.2 else none
    (known, Function.update memo parent (some known))

structure Memos where
  scopeMemo : EntryIdx → Option Bool
  dirPaths : EntryIdx → Option (Option Bytes)
  folders : Option FolderPaths

/-- The memos a search starts with. Full paths are kept only if there is something left to test on them. -/
def Memos.new (ix : VolumeIndex) (parsed : ParsedQuery) (compiled : CompiledQuery) : Memos where
  scopeMemo := fun _ => none
  dirPaths := fun _ => none
  folders := if testsPaths parsed compiled then some (.new ix compiled.mountPrefix (!parsed.matchCase)) else none

def Memos.scopeTest (memos : Memos) (ix : VolumeIndex) (idx : EntryIdx) : Option EntryIdx → Bool × Memos
  | none => (true, memos)
  | some scope =>
    let tested := inScope ix idx scope memos.scopeMemo
    (tested.1, { memos with scopeMemo := tested.2 })

/-- The test of an entry's path: its terms and wildcards, or only whether it has one. A top has no
    folder, and is never tested. -/
def Memos.pathTest (memos : Memos) (ix : VolumeIndex) (parsed : ParsedQuery) (compiled : CompiledQuery) (idx : EntryIdx) :
    Asking (Bool × Memos) :=
  match memos.folders with
  | some folders => do
    let tested ← folders.fullPathMatches ix parsed compiled idx
    pure (tested.1, { memos with folders := some tested.2 })
  | none =>
    if ix.mayHaveUnpresentable then
      match ix.entries.parent idx with
      | none => pure (false, memos)
      | some parent =>
        let path := parentPath ix parent memos.dirPaths
        pure (path.1.isSome, { memos with dirPaths := path.2 })
    else pure (true, memos)

variable [Externals]

/-- The predicates on an entry's name, unless the way that led to the entry decides them. -/
def nameTest (ix : VolumeIndex) (parsed : ParsedQuery) (compiled : CompiledQuery) (nameDecided : Bool) (idx : EntryIdx) :
    Asking Bool :=
  if nameDecided then pure true else nameMatches ix parsed compiled (ix.entries.nameId idx)

def evaluate (ix : VolumeIndex) (parsed : ParsedQuery) (compiled : CompiledQuery) (scope : Option EntryIdx)
    (nameDecided : Bool) (memos : Memos) (idx : EntryIdx) : Asking (Option Candidate × Memos) := do
  if columnsMatch ix parsed.filters idx then
    let named ← nameTest ix parsed compiled nameDecided idx
    if named then
      let inside := memos.scopeTest ix idx scope
      if inside.1 then
        let tested ← inside.2.pathTest ix parsed compiled idx
        pure (if tested.1 then some ⟨idx, 0⟩ else none, tested.2)
      else pure (none, inside.2)
    else pure (none, memos)
  else pure (none, memos)

end Memo

section Subtree

/-- Where a walk of a subtree stands: the entry it yields next, and its level below the start. -/
structure SubtreeWalk where
  cur : Option EntryIdx
  depth : Nat

variable (ix : VolumeIndex) (root : EntryIdx)

/-- Climbs until a sibling exists. A consistent tree climbs back in as many steps as the walk went down. -/
def climbBack : Nat → EntryIdx → SubtreeWalk
  | depth, at_ =>
    match ix.entries.nextChild at_ with
    | some sib => ⟨some sib, depth⟩
    | none =>
      match depth with
      | 0 => ⟨none, 0⟩
      | 1 => ⟨none, 1⟩
      | depth + 2 =>
        match ix.entries.parent at_ with
        | none => ⟨none, depth + 1⟩
        | some up => if up = root then ⟨none, depth + 1⟩ else climbBack (depth + 1) up

def SubtreeWalk.advance (yielded : EntryIdx) (depth : Nat) : SubtreeWalk :=
  match ix.entries.firstChild yielded with
  | some down => ⟨some down, depth + 1⟩
  | none => climbBack ix root depth yielded

/-- The next entries of a walk, at most as many as the first argument says: whoever walks stops at some count. -/
def SubtreeWalk.items : Nat → SubtreeWalk → List EntryIdx
  | 0, _ => []
  | count + 1, walk =>
    match walk.cur with
    | none => []
    | some yielded => yielded :: items count (SubtreeWalk.advance ix root yielded walk.depth)

def subtreeEntries (count : Nat) : List EntryIdx :=
  SubtreeWalk.items ix root count ⟨ix.entries.firstChild root, 1⟩

end Subtree

section Cost

variable (ix : VolumeIndex) (parsed : ParsedQuery) (compiled : CompiledQuery)

def driver : Option Bytes := if parsed.matchCase then none else compiled.prefilter

def scanCost : Nat × Option (List NameId) :=
  match driver parsed compiled with
  | none => (if compiled.pathPiece.isSome then 0 else ix.entries.live, none)
  | some needle =>
    let ids := prefilterHits ix.names needle
    (ids.foldl (fun entries id => entries + ix.names.refcount id) 0, some ids)

end Cost

def subtreeWalkMax : Nat := 200000

def pathWalkShare : Nat := 4

structure Searching where
  memos : Memos
  watch : Watch
  candidates : List Candidate

variable [Externals] (ix : VolumeIndex) (parsed : ParsedQuery) (compiled : CompiledQuery)

def consult (scope : Option EntryIdx) (nameDecided : Bool) (st : Searching) (idx : EntryIdx) : Asking Searching :=
  if ix.isSynthetic idx then pure st
  else do
    let tested ← evaluate ix parsed compiled scope nameDecided st.memos idx
    pure { st with memos := tested.2, candidates := st.candidates ++ tested.1.toList }

/-- A walk of the scope: how many entries it visited, how many it may, and whether that was weighed
    against the scan, with the names that the weighing found. -/
structure ScopeWalk where
  search : Searching
  visited : Nat
  cap : Nat
  priced : Bool
  hits : Option (List NameId)
  done : Bool

def ScopeWalk.weigh (walk : ScopeWalk) : ScopeWalk :=
  if walk.visited > walk.cap && !walk.priced then
    let cost := scanCost ix parsed compiled
    { walk with priced := true, cap := max walk.cap cost.1, hits := cost.2 }
  else walk

def walkScope : List EntryIdx → ScopeWalk → Asking ScopeWalk
  | [], walk => pure walk
  | idx :: rest, walk =>
    let weighed := { walk with visited := walk.visited + 1 }.weigh ix parsed compiled
    if weighed.visited > weighed.cap then
      pure { weighed with search := { weighed.search with candidates := [] }, done := false }
    else do
      let ticked ← weighed.search.watch.tick
      let search := { weighed.search with watch := ticked.2 }
      if ticked.1 then pure { weighed with search := search }
      else
        let consulted ← consult ix parsed compiled none false search idx
        walkScope rest { weighed with search := consulted }

def consultEach (scope : Option EntryIdx) (nameDecided : Bool) : List EntryIdx → Searching → Asking Searching
  | [], st => pure st
  | idx :: rest, st => do
    let ticked ← st.watch.tick
    let st := { st with watch := ticked.2 }
    if ticked.1 then pure st
    else
      let consulted ← consult ix parsed compiled scope nameDecided st idx
      consultEach scope nameDecided rest consulted

omit [Externals] in
/-- Whether a walk starts at `top`: its way up reaches a top other than lost+found and passes no other of `tops`. -/
def walkStartsAt (tops : List EntryIdx) : Nat → EntryIdx → Bool
  | 0, _ => false
  | hops + 1, cur =>
    match ix.entries.parent cur with
    | none => cur ≠ ix.lostFound
    | some parent => if parent ∈ tops then false else walkStartsAt tops hops parent

/-- Walks of subtrees in progress: what the visits left, how many there were, and whether the walks go on. -/
structure PathWalk (σ : Type) where
  state : σ
  watch : Watch
  visited : Nat
  outcome : Option Bool

omit [Externals] in
/-- The entries of one subtree. The outcome is set when the walk is over: false if there were too many. -/
def walkBelow {σ : Type} (visit : σ → EntryIdx → Asking σ) (maxVisits : Nat) : List EntryIdx → PathWalk σ → Asking (PathWalk σ)
  | [], walk => pure walk
  | idx :: rest, walk =>
    let walk := { walk with visited := walk.visited + 1 }
    if walk.visited > maxVisits then pure { walk with outcome := some false }
    else do
      let ticked ← walk.watch.tick
      let walk := { walk with watch := ticked.2 }
      if ticked.1 then pure { walk with outcome := some true }
      else
        let state ← visit walk.state idx
        walkBelow visit maxVisits rest { walk with state := state }

omit [Externals] in
def walkTops {σ : Type} (visit : σ → EntryIdx → Asking σ) (maxVisits : Nat) (tops : List EntryIdx) :
    List EntryIdx → PathWalk σ → Asking (PathWalk σ)
  | [], walk => pure { walk with outcome := some true }
  | top :: rest, walk => do
    let ticked ← walk.watch.tick
    let walk := { walk with watch := ticked.2 }
    if ticked.1 then pure { walk with outcome := some true }
    else if walkStartsAt ix tops maxPathHops top then
      let below ← walkBelow visit maxVisits (top :: subtreeEntries ix top (maxVisits + 1)) walk
      if below.outcome.isSome then pure below else walkTops visit maxVisits tops rest below
    else walkTops visit maxVisits tops rest walk

omit [Externals] in
/-- The entries that bear a name holding `piece`, and how many there are; the entries are listed only
    as long as there are at most `maxVisits`. -/
def bearers (piece : Bytes) (maxVisits : Nat) : Nat × List EntryIdx :=
  (prefilterHits ix.names piece).foldl (fun found id =>
    let bearing := found.1 + ix.names.refcount id
    (bearing, if bearing ≤ maxVisits then found.2 ++ ix.nameChain id else found.2)) (0, [])

omit [Externals] in
/-- Visits the entries at or below a name that holds `piece`, unless there are more than `maxVisits`. -/
def walkBelowNames {σ : Type} (piece : Bytes) (maxVisits : Nat) (visit : σ → EntryIdx → Asking σ) (start : σ) :
    Asking (Bool × σ) := do
  let found := bearers ix piece maxVisits
  if found.1 > maxVisits then pure (false, start)
  else
    let tops := found.2.mergeSort
    let walked ← walkTops ix visit maxVisits tops tops
      { state := start, watch := Watch.new, visited := 0, outcome := none }
    pure (walked.outcome.getD true, walked.state)

def scanAll (scope : Option EntryIdx) (st : Searching) : Asking Searching :=
  consultEach ix parsed compiled scope false ix.entries.iterLive { st with candidates := [] }

def scanNames (scope : Option EntryIdx) (hits : Option (List NameId)) (st : Searching) : Asking Searching :=
  match driver parsed compiled with
  | some needle =>
    (hits.getD (prefilterHits ix.names needle)).foldlM
      (fun st id => consultEach ix parsed compiled scope compiled.prefilterDecidesName (ix.nameChain id) st) st
  | none =>
    match compiled.pathPiece with
    | none => scanAll ix parsed compiled scope st
    | some piece => do
      let walked ← walkBelowNames ix piece (ix.entries.live / pathWalkShare) (consult ix parsed compiled scope false) st
      if walked.1 then pure walked.2 else scanAll ix parsed compiled scope walked.2

/-- Every match of the query below the scope, with a scope walked up to `walkFloor` entries at least. -/
def scanWith (scope : Option EntryIdx) (walkFloor : Nat) : Asking (List Candidate) := do
  if compiled.volumeAdmits then
    let start : Searching := { memos := .new ix parsed compiled, watch := .new, candidates := [] }
    match scope with
    | none =>
      let scanned ← scanNames ix parsed compiled none none start
      pure scanned.candidates
    | some root =>
      -- no walk goes on past the larger of its floor and the cost of the scan
      let entries := subtreeEntries ix root (max walkFloor (scanCost ix parsed compiled).1 + 1)
      let walk ← walkScope ix parsed compiled entries
        { search := start, visited := 0, cap := walkFloor, priced := false, hits := none, done := true }
      if walk.done then pure walk.search.candidates
      else
        let scanned ← scanNames ix parsed compiled scope walk.hits walk.search
        pure scanned.candidates
  else pure []

def scan (scope : Option EntryIdx) : Asking (List Candidate) := scanWith ix parsed compiled scope subtreeWalkMax

end Goz.Query
