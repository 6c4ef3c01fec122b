import Goz.Library.Merge
import Goz.Proto.Results
import Goz.Query.Compile

namespace Goz

open Function Proto

section Keys

variable [Externals]

def VolumeIndex.parentPath (ix : VolumeIndex) (idx : EntryIdx) : Bytes :=
  match ix.entries.parent idx with
  | some parent => (ix.pathOf parent []).2
  | none => []

end Keys

namespace Daemon

def pageByteBudget : Nat := maxServerFrame / 2

def pathMemoCapBytes : Nat := 32 * 2 ^ 20

/-- What of a request the pages depend on, once its text is parsed. -/
structure QueryRequest where
  sort : SortSpec
  offset : UInt32
  limit : Option UInt32
  wantSize : Bool
  wantMtime : Bool

/-- A volume a query has searched: its index then, all its hits in sort order, and the index each
    page is built from. -/
structure Searched where
  mountPrefix : Bytes
  scanned : VolumeIndex
  hits : List HitRef
  later : Nat → VolumeIndex

structure Run where
  refs : List HitRef
  pos : Nat := 0
  headKey : Option Bytes := none
  memo : EntryIdx → Option (Option Bytes) := fun _ => none
  memoGeneration : Nat := 2 ^ 64 - 1
  memoBytes : Nat := 0

namespace Run

variable [Externals]

def head (run : Run) : Option HitRef := run.refs[run.pos]?

def takeHead (run : Run) : Run := { run with pos := run.pos + 1, headKey := none }

end Run

section Rows

variable [Externals]

def pathKey (index : VolumeIndex) (mount : Bytes) (idx : EntryIdx) : Bytes :=
  fold (mount ++ index.parentPath idx) ++ [0] ++ fold (index.rawName idx)

def Run.ensureHeadKey (run : Run) (index : VolumeIndex) (mount : Bytes) : Run :=
  match run.headKey, run.head with
  | none, some h => { run with headKey := some (pathKey index mount h.idx) }
  | _, _ => run

def Run.refresh (run : Run) (index : VolumeIndex) : Run :=
  if run.memoGeneration ≠ index.generation ∨ run.memoBytes > pathMemoCapBytes then
    { run with memo := fun _ => none, memoGeneration := index.generation, memoBytes := 0 }
  else run

def shownPath (index : VolumeIndex) (folder : EntryIdx) : Option Bytes :=
  let built := index.pathOf folder []
  if built.1 = .ok then some built.2 else none

def Run.memoize (run : Run) (index : VolumeIndex) (parent : EntryIdx) : Run × Option Bytes :=
  match run.memo parent with
  | some built => (run, built)
  | none =>
    let built := shownPath index parent
    ({ run with
        memo := update run.memo parent (some built)
        memoBytes := run.memoBytes + (built.map List.length).getD 0 }, built)

def Run.rowPath (run : Run) (index : VolumeIndex) (parent : EntryIdx) (name mount : Bytes) : Run × Option Bytes :=
  let known := (run.refresh index).memoize index parent
  (known.1, known.2.map fun parentPath =>
    mount ++ (if parentPath.isEmpty then [] else parentPath ++ [0x5C]) ++ name)

end Rows

structure Lane where
  vol : Searched
  run : Run

/-- The runs of a query and how many merged rows were taken from them, sent or not. -/
structure Heads where
  lanes : List Lane
  consumed : Nat

section Merging

variable [Externals]

def Lane.guard (lane : Lane) (page : Nat) : VolumeIndex := lane.vol.later page

def vanished (index : VolumeIndex) (h : HitRef) : Bool := (index.entryIfFrn h.idx h.frn).isNone

def Lane.vanishedHeads (page : Nat) (lane : Lane) : Nat :=
  ((lane.run.refs.drop lane.run.pos).takeWhile (vanished (lane.guard page))).length

def Lane.stepPast (page : Nat) (lane : Lane) : Lane :=
  { lane with run := Run.takeHead^[lane.vanishedHeads page] lane.run }

def Lane.ensureHeadKey (page : Nat) (lane : Lane) : Lane :=
  { lane with run := lane.run.ensureHeadKey (lane.guard page) lane.vol.mountPrefix }

def cmpHeads (sort : SortSpec) (page : Nat) (a b : Lane) : Ordering :=
  match a.run.head, b.run.head with
  | some ha, some hb =>
    let ia := a.guard page
    let ib := b.guard page
    let byName := compare (ia.foldedName ha.idx) (ib.foldedName hb.idx)
    let base :=
      match sort.key with
      | .name => byName
      | .size => (compare (sizeKey (ia.sizeAt ha.idx) sort.dir) (sizeKey (ib.sizeAt hb.idx) sort.dir)).then byName
      | .dateModified =>
        (compare (mtimeKey (ia.mtimeAt ha.idx) sort.dir) (mtimeKey (ib.mtimeAt hb.idx) sort.dir)).then byName
      | .path => compare a.run.headKey b.run.headKey
    if sort.dir = .desc then base.swap else base
  | _, _ => .eq

def pickBest (sort : SortSpec) (page : Nat) (state : List Lane × Option Nat) (ri : Nat) : List Lane × Option Nat :=
  if (state.1[ri]?.bind (·.run.head)).isNone then state
  else
    match state.2 with
    | none => (state.1, some ri)
    | some bi =>
      let keyed :=
        if sort.key = .path then (state.1.modify ri (·.ensureHeadKey page)).modify bi (·.ensureHeadKey page)
        else state.1
      match keyed[ri]?, keyed[bi]? with
      | some a, some b => if cmpHeads sort page a b = .lt then (keyed, some ri) else (keyed, some bi)
      | _, _ => (keyed, some bi)

def Heads.stepPast (page : Nat) (s : Heads) : Heads where
  lanes := s.lanes.map (·.stepPast page)
  consumed := s.consumed + (s.lanes.map (·.vanishedHeads page)).sum

/-- Steps every run past heads that no longer exist and picks the run whose head comes first. -/
def nextHead (sort : SortSpec) (turn : Option (List Nat)) (page : Nat) (s : Heads) : Heads × Option Nat :=
  let stepped := s.stepPast page
  match turn with
  | some turn => (stepped, turn.find? fun ri => (stepped.lanes[ri]?.bind (·.run.head)).isSome)
  | none =>
    let best := (List.range stepped.lanes.length).foldl (pickBest sort page) (stepped.lanes, none)
    ({ stepped with lanes := best.1 }, best.2)

def volumesInTurn (mounts : List Bytes) (dir : SortDir) : Option (List Nat) :=
  let folded := mounts.map fold
  let nested := folded.zipIdx.any fun a =>
    !([0x5C].isSuffixOf a.1) || folded.zipIdx.any fun b => a.2 ≠ b.2 && a.1.isPrefixOf b.1
  if nested then none
  else
    let order := (folded.zipIdx.insertionSort fun a b => (compare a.1 b.1).isLE).map (·.2)
    some (if dir = .desc then order.reverse else order)

end Merging

variable [Externals]

/-- A row on a page: the run and place it was taken from and what is sent of it. -/
structure Sent where
  run : Nat
  pos : Nat
  path : Bytes
  isDir : Bool
  size : Option UInt64
  mtime : Option Int64
  deriving DecidableEq, Repr

structure Plan where
  request : QueryRequest
  turn : Option (List Nat)
  start : Nat
  stop : Nat

structure Filled where
  heads : Heads
  out : Bytes
  rows : List Sent

structure Page where
  rows : List Sent
  more : Bool
  frame : Bytes

def buildRow (q : QueryRequest) (page ri : Nat) (lane : Lane) (h : HitRef) : Lane × Option Sent :=
  let index := lane.guard page
  match index.entries.parent h.idx with
  | none => (lane, none)
  | some parent =>
    let shown := lane.run.rowPath index parent (index.rawName h.idx) lane.vol.mountPrefix
    ({ lane with run := shown.1 }, shown.2.map fun path =>
      { run := ri
        pos := lane.run.pos - 1
        path := path
        isDir := (index.entries.flags h.idx).dir
        size := if q.wantSize then index.sizeAt h.idx else none
        mtime := if q.wantMtime then index.mtimeAt h.idx else none })

def takeRow (plan : Plan) (page : Nat) (s : Heads) (ri : Nat) : Heads × Option Sent :=
  match s.lanes[ri]? with
  | none => (s, none)
  | some lane =>
    match lane.run.head with
    | none => (s, none)
    | some h =>
      let taken := { lane with run := lane.run.takeHead }
      let consumed := s.consumed + 1
      if consumed ≤ plan.start then ({ lanes := s.lanes.set ri taken, consumed := consumed }, none)
      else
        let built := buildRow plan.request page ri taken h
        ({ lanes := s.lanes.set ri built.1, consumed := consumed }, built.2)

def pushSent (out : Bytes) (row : Sent) : Bytes := pushItem out row.path row.isDir row.size row.mtime

def fillPage (plan : Plan) (page : Nat) : Nat → Heads → Bytes → Filled
  | 0, s, out => { heads := s, out := out, rows := [] }
  | left + 1, s, out =>
    if s.consumed < plan.stop ∧ out.length < pageByteBudget then
      match nextHead plan.request.sort plan.turn page s with
      | (s, none) => { heads := s, out := out, rows := [] }
      | (s, some ri) =>
        match takeRow plan page s ri with
        | (s, none) => fillPage plan page left s out
        | (s, some row) =>
          let filled := fillPage plan page left s (pushSent out row)
          { filled with rows := row :: filled.rows }
    else { heads := s, out := out, rows := [] }

theorem fillPage_succ (plan : Plan) (page left : Nat) (s : Heads) (out : Bytes) :
    (¬ (s.consumed < plan.stop ∧ out.length < pageByteBudget) ∧
      fillPage plan page (left + 1) s out = { heads := s, out := out, rows := [] }) ∨
    (s.consumed < plan.stop ∧ out.length < pageByteBudget) ∧ ∃ s' best,
      nextHead plan.request.sort plan.turn page s = (s', best) ∧
      (best = none ∧ fillPage plan page (left + 1) s out = { heads := s', out := out, rows := [] } ∨
        ∃ ri s'' sent, best = some ri ∧ takeRow plan page s' ri = (s'', sent) ∧
          (sent = none ∧ fillPage plan page (left + 1) s out = fillPage plan page left s'' out ∨
            ∃ row, sent = some row ∧ fillPage plan page (left + 1) s out =
              { fillPage plan page left s'' (pushSent out row) with
                rows := row :: (fillPage plan page left s'' (pushSent out row)).rows })) := by
  rw [fillPage]
  by_cases going : s.consumed < plan.stop ∧ out.length < pageByteBudget
  · right
    rw [if_pos going]
    refine ⟨going, ?_⟩
    cases nextHead plan.request.sort plan.turn page s with
    | mk s' best =>
      refine ⟨s', best, rfl, ?_⟩
      cases best with
      | none => exact .inl ⟨rfl, rfl⟩
      | some ri =>
        right
        cases taken : takeRow plan page s' ri with
        | mk s'' sent =>
          refine ⟨ri, s'', sent, rfl, taken, ?_⟩
          cases sent with
          | none => exact .inl ⟨rfl, by simp only [taken]⟩
          | some row => exact .inr ⟨row, rfl, by simp only [taken]⟩
  · exact .inl ⟨going, if_neg going⟩

def frameStart (summary : Summary) : Bytes := pushResultsHeader [0, 0, 0, 0] summary 0 false 0

def finishFrame (out : Bytes) (more : Bool) (count : Nat) : Bytes :=
  leBytes 4 (out.length - 4) ++ patchResultsHeader (out.drop 4) more count

def streamPages (plan : Plan) (summary : Summary) : Nat → Nat → Heads → List Page
  | 0, _, _ => []
  | fuel + 1, page, s =>
    let filled := fillPage plan page pageRows s (frameStart summary)
    let more := decide (filled.heads.consumed < plan.stop)
    { rows := filled.rows, more := more, frame := finishFrame filled.out more filled.rows.length } ::
      if more then streamPages plan summary fuel (page + 1) filled.heads else []

def u32Max : Nat := 2 ^ 32 - 1

/-- Saturates as the source's `u32` does. -/
def perVolLimit (q : QueryRequest) : Option Nat := q.limit.map fun l => min (q.offset.toNat + l.toNat) u32Max

def firstHits (q : QueryRequest) (vol : Searched) : List HitRef :=
  match perVolLimit q with
  | none => vol.hits
  | some n => vol.hits.take n

def openLanes (q : QueryRequest) (vols : List Searched) : List Lane :=
  (vols.map fun vol => { vol := vol, run := { refs := firstHits q vol } }).filter fun lane => !lane.run.refs.isEmpty

def planOf (q : QueryRequest) (lanes : List Lane) : Plan :=
  let total := (lanes.map (·.run.refs.length)).sum
  let start := min q.offset.toNat total
  { request := q
    turn := if q.sort.key = .path then volumesInTurn (lanes.map (·.vol.mountPrefix)) q.sort.dir else none
    start := start
    stop := (q.limit.map fun l => min (start + l.toNat) total).getD total }

/-- The answer to a query whose client takes every page. Every page but the last takes a row, so
    `stop + 1` pages are enough. -/
def streamQuery (q : QueryRequest) (summary : Summary) (vols : List Searched) : List Page :=
  let lanes := openLanes q vols
  let plan := planOf q lanes
  streamPages plan summary (plan.stop + 1) 0 { lanes := lanes, consumed := 0 }

end Daemon

end Goz
