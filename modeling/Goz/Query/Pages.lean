import Goz.Query.Names

namespace Goz.Query

section TopK

def topKMax : Nat := 10000

def topKApplies (ix : VolumeIndex) (parsed : ParsedQuery) (compiled : CompiledQuery) (scope : Option EntryIdx)
    (sort : SortSpec) (offset limit : Nat) : Bool :=
  sort.key ≠ .path && offset + limit ≤ topKMax && scope.isNone && !parsed.matchCase && compiled.prefilter.isSome &&
    compiled.volumeAdmits && !testsPaths parsed compiled && !ix.mayHaveUnpresentable

/-- The best candidates a buffer was offered, and the worst of those kept when it was last pruned. -/
structure Best where
  kept : List Candidate
  cutoff : Option Candidate

def Best.empty : Best := ⟨[], none⟩

def Best.prune (ix : VolumeIndex) (sort : SortSpec) (want : Nat) (best : Best) : Best :=
  if best.kept.length = 2 * want then
    let chosen := (best.kept.mergeSort (candidateLe ix sort)).take want
    { kept := chosen, cutoff := chosen[want - 1]? }
  else best

def Best.offer (ix : VolumeIndex) (sort : SortSpec) (want : Nat) (best : Best) (c : Candidate) : Best :=
  let pruned := best.prune ix sort want
  if pruned.cutoff.any fun cut => cmpCandidate ix sort c cut = .gt then pruned
  else { pruned with kept := pruned.kept ++ [c] }

/-- What a buffer gathered: its best candidates, how many there were, and their summed size. -/
structure Gathered where
  best : Best
  count : Nat
  size : Nat

structure Gathering extends Gathered where
  watch : Watch
  memos : Memos

variable [Externals] (ix : VolumeIndex) (parsed : ParsedQuery) (compiled : CompiledQuery) (sort : SortSpec)
  (want : Nat) (sumSizes : Bool)

omit [Externals] in
def Gathered.take (found : Gathered) (c : Candidate) : Gathered where
  best := if want = 0 then found.best else found.best.offer ix sort want { c with key := entryKey ix sort c.idx }
  count := found.count + 1
  size := if sumSizes then saturatingAdd found.size (filesSize ix [c.idx]) else found.size

def gatherEntry (st : Gathering) (idx : EntryIdx) : Asking Gathering :=
  if ix.isSynthetic idx then pure st
  else do
    let tested ← evaluate ix parsed compiled none true st.memos idx
    let st := { st with memos := tested.2 }
    pure (match tested.1 with
      | none => st
      | some c => { st with toGathered := st.toGathered.take ix sort want sumSizes c })

def gatherName (st : Gathering) (id : NameId) : Asking Gathering := do
  let verified ← verify ix parsed compiled (!compiled.prefilterDecidesName) st.watch id
  let st := { st with watch := verified.2 }
  if verified.1 then (ix.nameChain id).foldlM (gatherEntry ix parsed compiled sort want sumSizes) st else pure st

def gatherChunk (per : Nat) (found : Gathered) (i : Nat) : Asking Gathered := do
  let ids := chunkIds i per ix.names.ids
  let st ← (prefilterHitsIn ix.names (compiled.prefilter.getD []) ids.1 ids.2).foldlM
    (gatherName ix parsed compiled sort want sumSizes)
    { found with watch := .new, memos := { scopeMemo := fun _ => none, dirPaths := fun _ => none, folders := none } }
  pure st.toGathered

def gatherBuffer (per : Nat) (chunks : List Nat) : Asking Gathered :=
  chunks.foldlM (gatherChunk ix parsed compiled sort want sumSizes per) { best := .empty, count := 0, size := 0 }

end TopK

section Page

/-- What is asked of a volume: the page `[offset, offset + limit)` of a query below a scope. -/
structure PageRequest where
  mount : Bytes
  parsed : ParsedQuery
  scope : Option EntryIdx
  sort : SortSpec
  offset : Nat
  limit : Option Nat
  sumSizes : Bool

/-- How chunks of `per` words are shared out among threads: for each buffer the chunks that use it, in order. -/
structure Schedule (names per : Nat) where
  pos : 0 < per
  buffers : List (List Nat)
  covers : buffers.flatten.Perm (List.range (chunkCount per names))

inductive Stopped
  | stopped
  deriving DecidableEq, Repr

inductive Route
  | names
  | topK (limit : Nat)
  | scan
  deriving DecidableEq, Repr

variable [Externals] (ix : VolumeIndex) (req : PageRequest) {per : Nat}

namespace PageRequest

def compiled : CompiledQuery := compile req.parsed req.mount

def scopeIn : Option EntryIdx := req.scope.filter (· ≠ ix.root)

def route (fast : Bool) : Route :=
  if fast && req.sort.key = .name && isNameLevel ix req.parsed req.compiled (req.scopeIn ix) then .names
  else
    match req.limit with
    | none => .scan
    | some limit =>
      if fast && topKApplies ix req.parsed req.compiled (req.scopeIn ix) req.sort req.offset limit then .topK limit else .scan

def namesPage (per : Nat) (found : List ChunkMatch) : RefOutcome :=
  let matched := matchNames ix found
  { total := matched.2
    refs := nameLevelRefs ix matched.1 req.sort.dir (pageBounds matched.2 req.offset req.limit)
    totalSize := if req.sumSizes then some (namesFilesSize ix per matched.1) else none }

def topKPage (limit : Nat) (found : List Gathered) : RefOutcome :=
  let total := (found.map Gathered.count).sum
  let page := pageBounds total req.offset (some limit)
  { total := total
    refs := rowsOf ix (orderTop ix req.sort (found.flatMap fun g => g.best.kept) page.2) page
    totalSize := if req.sumSizes then some ((found.map Gathered.size).foldl saturatingAdd 0) else none }

def scanPage (found : List Candidate) : RefOutcome :=
  let page := pageBounds found.length req.offset req.limit
  { total := found.length
    refs := rowsOf ix (order ix req.sort found page.2) page
    totalSize := if req.sumSizes then some (filesSize ix (found.map Candidate.idx)) else none }

def gatherers (schedule : Schedule ix.names.ids per) (limit : Nat) : List (Asking Gathered) :=
  schedule.buffers.map
    (gatherBuffer ix req.parsed req.compiled req.sort (req.offset + limit) req.sumSizes per)

def pageRefs (schedule : Schedule ix.names.ids per) (fast : Bool) : RefOutcome :=
  match req.route ix fast with
  | .names => req.namesPage ix per ((matchChunks ix req.parsed req.compiled per).map Asking.quiet)
  | .topK limit => req.topKPage ix limit ((req.gatherers ix schedule limit).map Asking.quiet)
  | .scan => req.scanPage ix (scan ix req.parsed req.compiled (req.scopeIn ix)).quiet

def settled (heard : Bool) (outcome : RefOutcome) : Except Stopped RefOutcome := if heard then .error .stopped else .ok outcome

/-- What `page_refs` can return, whatever the budget answers to the checks of its threads and in whichever order
    they make them. -/
inductive Answered (schedule : Schedule ix.names.ids per) (fast : Bool) : Except Stopped RefOutcome → Prop
  | names {found : List ChunkMatch} {heard : Bool} (way : req.route ix fast = .names)
      (ran : Asking.Par (matchChunks ix req.parsed req.compiled per) found heard) :
      Answered schedule fast (settled heard (req.namesPage ix per found))
  | topK {limit : Nat} {found : List Gathered} {heard : Bool} (way : req.route ix fast = .topK limit)
      (ran : Asking.Par (req.gatherers ix schedule limit) found heard) :
      Answered schedule fast (settled heard (req.topKPage ix limit found))
  | scan {found : List Candidate} {heard : Bool} (way : req.route ix fast = .scan)
      (ran : Asking.Par [Query.scan ix req.parsed req.compiled (req.scopeIn ix)] [found] heard) :
      Answered schedule fast (settled heard (req.scanPage ix found))

end PageRequest

end Page

end Goz.Query
