import Goz.Daemon.Paging
import Goz.Index.Removals

namespace Goz.Daemon

open Function Merge VolumeIndex List

variable {h : HitRef} {k r page at_ : Nat} {q : QueryRequest} {vols : List Searched} {pos : Nat → Nat}
variable {lanes : List Lane} {vol : Searched} {lane : Lane} {refs : List HitRef}
variable [Externals] {sort : SortSpec} {s : Heads}

abbrev RowKey := UInt64 × Bytes

def rowKey (sort : SortSpec) (index : VolumeIndex) (mount : Bytes) (idx : EntryIdx) : RowKey :=
  match sort.key with
  | .name => (0, index.foldedName idx)
  | .size => (sizeKey (index.sizeAt idx) sort.dir, index.foldedName idx)
  | .dateModified => (mtimeKey (index.mtimeAt idx) sort.dir, index.foldedName idx)
  | .path => (0, pathKey index mount idx)

def cmpAscending : RowKey → RowKey → Ordering := compareLex (compareOn Prod.fst) (compareOn Prod.snd)

def cmpKeys (dir : SortDir) (a b : RowKey) : Ordering := if dir = .desc then cmpAscending b a else cmpAscending a b

def keyAt (sort : SortSpec) (vols : List Searched) (x : Spot) : RowKey :=
  match vols[x.1]? with
  | none => (0, [])
  | some vol => (vol.hits[x.2]?.map fun h => rowKey sort vol.scanned vol.mountPrefix h.idx).getD (0, [])

def turnOf (sort : SortSpec) (vols : List Searched) : Option (List Nat) :=
  if sort.key = .path then volumesInTurn (vols.map (·.mountPrefix)) sort.dir else none

def rowCmp (sort : SortSpec) (vols : List Searched) (x y : Spot) : Ordering :=
  match turnOf sort vols with
  | some turn => compare (turn.idxOf x.1) (turn.idxOf y.1)
  | none => cmpKeys sort.dir (keyAt sort vols x) (keyAt sort vols y)

def mergedRows (sort : SortSpec) (vols : List Searched) : List Spot :=
  merged (rowCmp sort vols) (fun r => (vols[r]?.map (·.hits.length)).getD 0) vols.length

omit [Externals] in
theorem cmpAscending_swap (a b : RowKey) : (cmpAscending a b).swap = cmpAscending b a :=
  have trans : Std.TransCmp cmpAscending := by unfold cmpAscending; infer_instance
  Std.OrientedCmp.eq_swap.symm

instance (dir : SortDir) : Std.TransCmp (cmpKeys dir) := by
  have trans : Std.TransCmp cmpAscending := by unfold cmpAscending; infer_instance
  unfold cmpKeys
  cases dir with
  | asc => simpa using trans
  | desc => simpa using @Std.TransCmp.opposite _ cmpAscending trans

instance (sort : SortSpec) (vols : List Searched) : Std.TransCmp (rowCmp sort vols) := by
  unfold rowCmp
  cases turnOf sort vols with
  | some turn => exact inferInstanceAs (Std.TransCmp (compareOn fun x : Spot => turn.idxOf x.1))
  | none =>
    have trans : Std.TransCmp (cmpKeys sort.dir) := inferInstance
    exact { eq_swap := trans.eq_swap, isLE_trans := trans.isLE_trans }

theorem cmpHeads_eq {page : Nat} {a b : Lane} {ha hb : HitRef} (headA : a.run.head = some ha)
    (headB : b.run.head = some hb)
    (keyed : sort.key = .path → a.run.headKey = some (pathKey (a.guard page) a.vol.mountPrefix ha.idx) ∧
      b.run.headKey = some (pathKey (b.guard page) b.vol.mountPrefix hb.idx)) :
    cmpHeads sort page a b = cmpKeys sort.dir (rowKey sort (a.guard page) a.vol.mountPrefix ha.idx)
      (rowKey sort (b.guard page) b.vol.mountPrefix hb.idx) := by
  have swap := cmpAscending_swap (rowKey sort (a.guard page) a.vol.mountPrefix ha.idx)
    (rowKey sort (b.guard page) b.vol.mountPrefix hb.idx)
  rw [cmpKeys, ← swap]
  unfold cmpHeads rowKey
  simp only [headA, headB]
  obtain ⟨key, dir⟩ := sort
  cases key with
  | name => rfl
  | size => rfl
  | dateModified => rfl
  | path =>
    obtain ⟨keyA, keyB⟩ := keyed rfl
    simp only [keyA, keyB]
    rfl

def goneAt (vols : List Searched) (page : Nat) (x : Spot) : Bool :=
  match vols[x.1]? with
  | none => false
  | some vol => (vol.hits[x.2]?.map (vanished (vol.later page))).getD false

def held (q : QueryRequest) (vols : List Searched) (r : Nat) : Nat :=
  (vols[r]?.map fun vol => (firstHits q vol).length).getD 0

/-- A lane whose run is read up to `pos`. A built key is that of the head, as the scan saw it, and
    every memoized folder is shown. -/
structure Lane.Tracks (vol : Searched) (refs : List HitRef) (pos : Nat) (lane : Lane) : Prop where
  source : lane.vol = vol
  hits : lane.run.refs = refs
  place : lane.run.pos = pos
  key : ∀ key, lane.run.headKey = some key →
    ∃ h, lane.run.head = some h ∧ key = pathKey vol.scanned vol.mountPrefix h.idx
  memo : ∀ folder, lane.run.memo folder ≠ some none

structure Follows (q : QueryRequest) (vols : List Searched) (pos : Nat → Nat) (lanes : List Lane) : Prop where
  length : lanes.length = vols.length
  lane : ∀ r vol, vols[r]? = some vol → ∃ lane : Lane, lanes[r]? = some lane ∧ lane.Tracks vol (firstHits q vol) (pos r)

/-- At every page the hits still there are ordered by what the scan saw, and are shown. -/
structure Steady (sort : SortSpec) (vol : Searched) : Prop where
  gone : ∀ page, ∀ h ∈ vol.hits, vanished (vol.later page) h = true → vanished (vol.later (page + 1)) h = true
  key : ∀ page, ∀ h ∈ vol.hits, vanished (vol.later page) h = false →
    rowKey sort (vol.later page) vol.mountPrefix h.idx = rowKey sort vol.scanned vol.mountPrefix h.idx
  shown : ∀ page, ∀ h ∈ vol.hits, vanished (vol.later page) h = false →
    ∃ parent path, (vol.later page).entries.parent h.idx = some parent ∧ shownPath (vol.later page) parent = some path

omit [Externals] in
theorem firstHits_isPrefix (q : QueryRequest) (vol : Searched) : firstHits q vol <+: vol.hits := by
  unfold firstHits
  split
  · exact prefix_refl _
  · exact take_prefix _ _

omit [Externals] in
theorem getElem?_firstHits (at_ : (firstHits q vol)[k]? = some h) : vol.hits[k]? = some h := by
  obtain ⟨rest, split⟩ := firstHits_isPrefix q vol
  rw [← split, List.getElem?_append_left (List.getElem?_eq_some_iff.mp at_).1]
  exact at_

omit [Externals] in
theorem goneAt_eq (volAt : vols[r]? = some vol) (hitAt : vol.hits[k]? = some h) :
    goneAt vols page (r, k) = vanished (vol.later page) h := by
  simp [goneAt, volAt, hitAt]

omit [Externals] in
theorem held_eq (q : QueryRequest) (volAt : vols[r]? = some vol) : held q vols r = (firstHits q vol).length := by
  simp [held, volAt]

theorem keyAt_eq (volAt : vols[r]? = some vol) (hitAt : vol.hits[k]? = some h) :
    keyAt sort vols (r, k) = rowKey sort vol.scanned vol.mountPrefix h.idx := by
  simp [keyAt, volAt, hitAt]

section StepPast

omit [Externals] in
theorem takeHead_iterate (n : Nat) (run : Run) :
    (Run.takeHead^[n] run).refs = run.refs ∧ (Run.takeHead^[n] run).pos = run.pos + n ∧
      (Run.takeHead^[n] run).memo = run.memo ∧ (n ≠ 0 → (Run.takeHead^[n] run).headKey = none) := by
  induction n with
  | zero => simp
  | succ n ih =>
    rw [iterate_succ_apply']
    refine ⟨ih.1, ?_, ih.2.2.1, fun _ => rfl⟩
    show (Run.takeHead^[n] run).pos + 1 = run.pos + (n + 1)
    rw [ih.2.1, Nat.add_assoc]

theorem Lane.Tracks.head (tracks : lane.Tracks vol refs at_) : lane.run.head = refs[at_]? := by
  rw [Run.head, tracks.hits, tracks.place]

theorem Lane.Tracks.stepPast (tracks : lane.Tracks vol refs at_) (page : Nat) :
    (lane.stepPast page).Tracks vol refs (at_ + lane.vanishedHeads page) := by
  obtain ⟨hits, place, memo, key⟩ := takeHead_iterate (lane.vanishedHeads page) lane.run
  refine ⟨tracks.source, hits.trans tracks.hits, by rw [← tracks.place]; exact place, fun built found => ?_, ?_⟩
  · by_cases still : lane.vanishedHeads page = 0
    · have same : lane.stepPast page = lane := by simp [Lane.stepPast, still]
      rw [same] at found ⊢
      exact tracks.key built found
    · rw [Lane.stepPast, key still] at found
      cases found
  · rw [Lane.stepPast, memo]
    exact tracks.memo

omit [Externals] in
theorem getElem?_rest (lane : Lane) (page i : Nat) : lane.run.refs[lane.run.pos + i]? =
    ((lane.run.refs.drop lane.run.pos).takeWhile (vanished (lane.guard page)) ++
      (lane.run.refs.drop lane.run.pos).dropWhile (vanished (lane.guard page)))[i]? := by
  rw [takeWhile_append_dropWhile, getElem?_drop]

omit [Externals] in
theorem vanished_of_stepped (after : lane.run.pos ≤ k)
    (before : k < lane.run.pos + lane.vanishedHeads page) (found : lane.run.refs[k]? = some h) :
    vanished (lane.guard page) h = true := by
  obtain ⟨i, rfl⟩ : ∃ i, k = lane.run.pos + i := ⟨k - lane.run.pos, by omega⟩
  rw [getElem?_rest lane page, getElem?_append_left (by unfold Lane.vanishedHeads at before; omega)] at found
  exact mem_takeWhile_imp (mem_of_getElem? found)

omit [Externals] in
theorem vanished_steppedTo
    (found : lane.run.refs[lane.run.pos + lane.vanishedHeads page]? = some h) :
    vanished (lane.guard page) h = false := by
  rw [getElem?_rest lane page, Lane.vanishedHeads, getElem?_append_right le_rfl, Nat.sub_self,
    ← List.head?_eq_getElem?] at found
  have first := head?_dropWhile_not (vanished (lane.guard page)) (lane.run.refs.drop lane.run.pos)
  rw [found] at first
  simpa using first

omit [Externals] in
theorem vanishedHeads_le (page : Nat) (bound : lane.run.pos ≤ lane.run.refs.length) :
    lane.run.pos + lane.vanishedHeads page ≤ lane.run.refs.length := by
  have short : lane.vanishedHeads page ≤ (lane.run.refs.drop lane.run.pos).length :=
    (takeWhile_sublist (vanished (lane.guard page))).length_le
  rw [length_drop] at short
  omega

def steppedTo (lanes : List Lane) (page r : Nat) : Nat :=
  (lanes[r]?.map fun lane => lane.run.pos + lane.vanishedHeads page).getD 0

variable (follows : Follows q vols pos lanes)
include follows

theorem Follows.vol_at (run : r < vols.length) :
    ∃ vol lane, vols[r]? = some vol ∧ lanes[r]? = some lane ∧ lane.Tracks vol (firstHits q vol) (pos r) := by
  have volAt : vols[r]? = some vols[r] := getElem?_eq_getElem run
  obtain ⟨lane, laneAt, tracks⟩ := follows.lane r _ volAt
  exact ⟨_, lane, volAt, laneAt, tracks⟩

theorem Follows.stepPast (page : Nat) :
    Follows q vols (steppedTo lanes page) (lanes.map (·.stepPast page)) where
  length := by rw [length_map, follows.length]
  lane r vol volAt := by
    obtain ⟨lane, laneAt, tracks⟩ := follows.lane r vol volAt
    refine ⟨lane.stepPast page, by simp [laneAt], ?_⟩
    have stands : steppedTo lanes page r = pos r + lane.vanishedHeads page := by
      simp [steppedTo, laneAt, tracks.place]
    rw [stands]
    exact tracks.stepPast page

theorem Follows.places :
    (range vols.length).map pos = lanes.map (·.run.pos) := by
  apply ext_getElem?
  intro r
  by_cases run : r < vols.length
  · obtain ⟨vol, lane, volAt, laneAt, tracks⟩ := follows.vol_at run
    simp [laneAt, run, tracks.place]
  · have out : lanes.length ≤ r := by rw [follows.length]; omega
    simp [run, out]

omit follows

theorem Follows.counted (follows : Follows q vols pos s.lanes)
    (counted : s.consumed = ((range vols.length).map pos).sum) (page : Nat) :
    (s.stepPast page).consumed = ((range vols.length).map (steppedTo s.lanes page)).sum := by
  show s.consumed + (s.lanes.map (·.vanishedHeads page)).sum = _
  rw [(follows.stepPast page).places, map_map, counted, follows.places, ← sum_map_add]
  congr 1
  apply map_congr_left
  intro lane _
  exact (takeHead_iterate _ _).2.1.symm

theorem Follows.skims (follows : Follows q vols pos lanes) (bound : ∀ r < vols.length, pos r ≤ held q vols r)
    (page : Nat) : Skims (held q vols) vols.length (fun x => goneAt vols page x = true) pos (steppedTo lanes page) := by
  have at_ : ∀ r < vols.length, ∃ (vol : Searched) (lane : Lane), vols[r]? = some vol ∧ lane.vol = vol ∧
      lane.run.refs = firstHits q vol ∧ lane.run.pos = pos r ∧
      steppedTo lanes page r = lane.run.pos + lane.vanishedHeads page ∧ lane.run.pos ≤ lane.run.refs.length := by
    intro r run
    obtain ⟨vol, lane, volAt, laneAt, tracks⟩ := follows.vol_at run
    refine ⟨vol, lane, volAt, tracks.source, tracks.hits, tracks.place, by simp [steppedTo, laneAt], ?_⟩
    rw [tracks.place, tracks.hits, ← held_eq q volAt]
    exact bound r run
  refine ⟨fun r run => ?_, fun r run => ?_, fun r run k after before => ?_, fun r run inside => ?_⟩
  all_goals obtain ⟨vol, lane, volAt, rfl, hits, place, stands, le⟩ := at_ r run
  all_goals have end_ := vanishedHeads_le page le
  · omega
  · rw [stands, held_eq q volAt, ← hits]
    exact end_
  · have hit : lane.run.refs[k]? = some lane.run.refs[k] := getElem?_eq_getElem (by omega)
    show goneAt vols page (r, k) = true
    rw [goneAt_eq volAt (getElem?_firstHits (q := q) (by rw [← hits]; exact hit))]
    exact vanished_of_stepped (by omega) (by omega) hit
  · rw [stands, held_eq q volAt, ← hits] at inside
    have hit := getElem?_eq_getElem inside
    show ¬ goneAt vols page (r, steppedTo lanes page r) = true
    rw [stands, goneAt_eq volAt (getElem?_firstHits (q := q) (by rw [← hits]; exact hit))]
    exact Bool.eq_false_iff.mp (vanished_steppedTo hit)

end StepPast

variable {next : Nat → Nat}

def Fresh (q : QueryRequest) (vols : List Searched) (page : Nat) (next : Nat → Nat) : Prop :=
  ∀ r vol h, vols[r]? = some vol → (firstHits q vol)[next r]? = some h → vanished (vol.later page) h = false

def Keyed (vol : Searched) (lane : Lane) : Prop :=
  ∀ h, lane.run.head = some h → lane.run.headKey = some (pathKey vol.scanned vol.mountPrefix h.idx)

theorem Steady.pathKey_eq (steady : Steady sort vol) (byPath : sort.key = .path)
    (hit : h ∈ vol.hits) (there : vanished (vol.later page) h = false) :
    pathKey (vol.later page) vol.mountPrefix h.idx = pathKey vol.scanned vol.mountPrefix h.idx := by
  have same := steady.key page h hit there
  simp only [rowKey, byPath] at same
  exact (Prod.mk.inj same).2

theorem Lane.Tracks.ensureHeadKey (tracks : lane.Tracks vol refs at_)
    (same : ∀ h, refs[at_]? = some h →
      pathKey (vol.later page) vol.mountPrefix h.idx = pathKey vol.scanned vol.mountPrefix h.idx) :
    (lane.ensureHeadKey page).Tracks vol refs at_ ∧ Keyed vol (lane.ensureHeadKey page) := by
  cases built : lane.run.headKey with
  | some key =>
    have idle : lane.ensureHeadKey page = lane := by simp [Lane.ensureHeadKey, Run.ensureHeadKey, built]
    rw [idle]
    refine ⟨tracks, fun h head => ?_⟩
    obtain ⟨h', head', rfl⟩ := tracks.key key built
    rw [head] at head'
    rw [built, Option.some.inj head']
  | none =>
    cases head : lane.run.head with
    | none =>
      have idle : lane.ensureHeadKey page = lane := by simp [Lane.ensureHeadKey, Run.ensureHeadKey, built, head]
      rw [idle]
      refine ⟨tracks, fun h some_ => ?_⟩
      rw [head] at some_
      cases some_
    | some h =>
      have key := same h (tracks.head ▸ head)
      have now : lane.ensureHeadKey page =
          { lane with run := { lane.run with headKey := some (pathKey vol.scanned vol.mountPrefix h.idx) } } := by
        simp only [Lane.ensureHeadKey, Run.ensureHeadKey, built, head, Lane.guard, tracks.source, key]
      rw [now]
      have kept : ∀ key, some (pathKey vol.scanned vol.mountPrefix h.idx) = some key →
          ∃ h, lane.run.head = some h ∧ key = pathKey vol.scanned vol.mountPrefix h.idx := fun key found =>
        ⟨h, head, (Option.some.inj found).symm⟩
      refine ⟨{ tracks with key := kept }, ?_⟩
      intro h' head'
      have eq : h = h' := Option.some.inj (head.symm.trans head')
      rw [eq]

theorem Follows.modify (follows : Follows q vols next lanes) (b : Nat) {f : Lane → Lane}
    (keeps : ∀ vol lane, vols[b]? = some vol → lane.Tracks vol (firstHits q vol) (next b) →
      (f lane).Tracks vol (firstHits q vol) (next b)) : Follows q vols next (lanes.modify b f) where
  length := by rw [length_modify, follows.length]
  lane r vol volAt := by
    obtain ⟨lane, laneAt, tracks⟩ := follows.lane r vol volAt
    by_cases here : b = r
    · subst here
      exact ⟨f lane, by simp [laneAt], keeps vol lane volAt tracks⟩
    · exact ⟨lane, by simp [laneAt, here], tracks⟩

theorem Follows.keyed (follows : Follows q vols next lanes) (steady : ∀ vol ∈ vols, Steady q.sort vol)
    (fresh : Fresh q vols page next) (a b : Nat) :
    let keyed := if q.sort.key = .path then (lanes.modify a (·.ensureHeadKey page)).modify b (·.ensureHeadKey page)
      else lanes
    Follows q vols next keyed ∧ (q.sort.key = .path → ∀ r vol lane, r = a ∨ r = b → vols[r]? = some vol →
      keyed[r]? = some lane → Keyed vol lane) := by
  intro keyed
  by_cases byPath : q.sort.key = .path
  · have built : keyed = (lanes.modify a (·.ensureHeadKey page)).modify b (·.ensureHeadKey page) := if_pos byPath
    have ensure : ∀ r vol (lane : Lane), vols[r]? = some vol → lane.Tracks vol (firstHits q vol) (next r) →
        (lane.ensureHeadKey page).Tracks vol (firstHits q vol) (next r) ∧ Keyed vol (lane.ensureHeadKey page) := by
      intro r vol lane volAt tracks
      apply tracks.ensureHeadKey
      intro h hit
      exact (steady vol (mem_of_getElem? volAt)).pathKey_eq byPath
        (mem_of_getElem? (getElem?_firstHits hit)) (fresh r vol h volAt hit)
    have first := follows.modify a fun vol lane volAt tracks => (ensure a vol lane volAt tracks).1
    have second := first.modify b fun vol lane volAt tracks => (ensure b vol lane volAt tracks).1
    rw [built]
    refine ⟨second, fun _ r vol lane either volAt laneAt => ?_⟩
    obtain ⟨old, oldAt, tracks⟩ := follows.lane r vol volAt
    obtain ⟨tracks₁, keyed₁⟩ := ensure r vol old volAt tracks
    obtain ⟨-, keyed₂⟩ := ensure r vol _ volAt tracks₁
    simp only [getElem?_modify, oldAt] at laneAt
    by_cases isA : a = r <;> by_cases isB : b = r <;> simp [isA, isB] at laneAt <;> subst laneAt
    · exact keyed₂
    · exact keyed₁
    · exact keyed₁
    · omega
  · have built : keyed = lanes := if_neg byPath
    rw [built]
    exact ⟨follows, fun byPath' => absurd byPath' byPath⟩

theorem cmpHeads_row (steady : ∀ vol ∈ vols, Steady q.sort vol) (fresh : Fresh q vols page next)
    (heads : turnOf q.sort vols = none) {a b : Nat} {volA volB : Searched} {laneA laneB : Lane}
    (volAtA : vols[a]? = some volA) (volAtB : vols[b]? = some volB)
    (tracksA : laneA.Tracks volA (firstHits q volA) (next a)) (tracksB : laneB.Tracks volB (firstHits q volB) (next b))
    (keyed : q.sort.key = .path → Keyed volA laneA ∧ Keyed volB laneB) (headA : next a < (firstHits q volA).length)
    (headB : next b < (firstHits q volB).length) :
    cmpHeads q.sort page laneA laneB = rowCmp q.sort vols (a, next a) (b, next b) := by
  have hitA := getElem?_eq_getElem headA
  have hitB := getElem?_eq_getElem headB
  have keyOf : ∀ r vol h, vols[r]? = some vol → (firstHits q vol)[next r]? = some h →
      rowKey q.sort (vol.later page) vol.mountPrefix h.idx = keyAt q.sort vols (r, next r) := by
    intro r vol h volAt hit
    rw [keyAt_eq volAt (getElem?_firstHits hit)]
    exact (steady vol (mem_of_getElem? volAt)).key page h (mem_of_getElem? (getElem?_firstHits hit))
      (fresh r vol h volAt hit)
  have firstA := tracksA.head.trans hitA
  have firstB := tracksB.head.trans hitB
  rw [cmpHeads_eq firstA firstB, rowCmp, heads]
  · simp only [Lane.guard, tracksA.source, tracksB.source, keyOf a volA _ volAtA hitA, keyOf b volB _ volAtB hitB]
  · intro byPath
    have same : ∀ r vol h, vols[r]? = some vol → (firstHits q vol)[next r]? = some h →
        pathKey (vol.later page) vol.mountPrefix h.idx = pathKey vol.scanned vol.mountPrefix h.idx :=
      fun r vol h volAt hit => (steady vol (mem_of_getElem? volAt)).pathKey_eq byPath
        (mem_of_getElem? (getElem?_firstHits hit)) (fresh r vol h volAt hit)
    obtain ⟨keyA, keyB⟩ := keyed byPath
    simp only [Lane.guard, tracksA.source, tracksB.source, same a volA _ volAtA hitA, same b volB _ volAtB hitB]
    exact ⟨keyA _ firstA, keyB _ firstB⟩

def BestOf (q : QueryRequest) (vols : List Searched) (next : Nat → Nat) (k : Nat) : Option Nat → Prop
  | none => ∀ r < k, ¬ next r < held q vols r
  | some b => b < k ∧ next b < held q vols b ∧
    ∀ r < k, next r < held q vols r → r ≠ b → Before (rowCmp q.sort vols) (b, next b) (r, next r)

theorem Follows.head_isNone (follows : Follows q vols next lanes) (run : r < vols.length) :
    (lanes[r]?.bind (·.run.head)).isNone = true ↔ ¬ next r < held q vols r := by
  obtain ⟨vol, lane, volAt, laneAt, tracks⟩ := follows.vol_at run
  simp [laneAt, tracks.head, held_eq q volAt]

theorem Follows.pickBest (follows : Follows q vols next lanes) (steady : ∀ vol ∈ vols, Steady q.sort vol)
    (fresh : Fresh q vols page next) (heads : turnOf q.sort vols = none) (run : k < vols.length)
    {best : Option Nat} (sofar : BestOf q vols next k best) :
    Follows q vols next (pickBest q.sort page (lanes, best) k).1 ∧
      BestOf q vols next (k + 1) (pickBest q.sort page (lanes, best) k).2 := by
  have empty := follows.head_isNone run
  unfold Daemon.pickBest
  split
  case isTrue none_ =>
    have ended := empty.mp none_
    refine ⟨follows, ?_⟩
    cases best with
    | none =>
      intro r lt
      by_cases last : r = k
      · exact last ▸ ended
      · exact sofar r (by omega)
    | some b =>
      obtain ⟨lt, bound, first⟩ := sofar
      refine ⟨by omega, bound, fun r lt inside apart => ?_⟩
      have other : r ≠ k := fun same => ended (same ▸ inside)
      exact first r (by omega) inside apart
  case isFalse some_ =>
    have inside : next k < held q vols k := by
      by_contra ended
      exact some_ (empty.mpr ended)
    cases best with
    | none =>
      refine ⟨follows, by omega, inside, fun r lt head apart => ?_⟩
      exact absurd head (sofar r (by omega))
    | some b =>
      obtain ⟨lt, bound, first⟩ := sofar
      obtain ⟨follows', keyed⟩ := follows.keyed steady fresh k b
      obtain ⟨volK, laneK, volAtK, laneAtK, tracksK⟩ := follows'.vol_at run
      obtain ⟨volB, laneB, volAtB, laneAtB, tracksB⟩ := follows'.vol_at (lt_trans lt run)
      have order := cmpHeads_row steady fresh heads volAtK volAtB tracksK tracksB
        (fun byPath => ⟨keyed byPath k volK laneK (.inl rfl) volAtK laneAtK,
          keyed byPath b volB laneB (.inr rfl) volAtB laneAtB⟩)
        (held_eq q volAtK ▸ inside) (held_eq q volAtB ▸ bound)
      simp only [laneAtK, laneAtB, order]
      split
      case isTrue less =>
        refine ⟨follows', by omega, inside, fun r lt' head apart => ?_⟩
        have ahead : Before (rowCmp q.sort vols) (k, next k) (b, next b) := .inl less
        by_cases same : r = b
        · exact same ▸ ahead
        · exact ahead.trans (first r (by omega) head same)
      case isFalse more =>
        refine ⟨follows', by omega, bound, fun r lt' head apart => ?_⟩
        by_cases last : r = k
        · subst last
          have either : Before (rowCmp q.sort vols) (b, next b) (r, next r) ∨ _ :=
            before_total fun same => apart (Prod.mk.inj same).1.symm
          rcases either with ahead | less | ⟨-, place⟩
          · exact ahead
          · exact absurd less more
          · simp only at place
            omega
        · exact first r (by omega) head apart

theorem volumesInTurn_perm {mounts : List Bytes} {dir : SortDir} {turn : List Nat}
    (found : volumesInTurn mounts dir = some turn) : turn.Perm (range mounts.length) := by
  unfold volumesInTurn at found
  simp only at found
  split at found
  case isTrue => cases found
  case isFalse =>
    obtain rfl := Option.some.inj found
    have order : (((mounts.map fold).zipIdx.insertionSort fun a b => (compare a.1 b.1).isLE = true).map (·.2)).Perm
        (range mounts.length) := by
      apply ((perm_insertionSort _ _).map _).trans
      rw [zipIdx_map_snd, length_map, ← range_eq_range']
    split
    · exact (reverse_perm _).trans order
    · exact order

theorem turnOf_perm {turn : List Nat} (found : turnOf sort vols = some turn) : turn.Perm (range vols.length) := by
  unfold turnOf at found
  split at found
  · simpa using volumesInTurn_perm found
  · cases found

theorem Follows.turn (follows : Follows q vols next lanes) {turn : List Nat} (found : turnOf q.sort vols = some turn) :
    BestOf q vols next vols.length (turn.find? fun ri => (lanes[ri]?.bind (·.run.head)).isSome) := by
  have perm := turnOf_perm found
  have mem : ∀ r, r ∈ turn ↔ r < vols.length := fun r => perm.mem_iff.trans mem_range
  have hasHead : ∀ r, r < vols.length → ((lanes[r]?.bind (·.run.head)).isSome = true ↔ next r < held q vols r) := by
    intro r run
    have empty := follows.head_isNone run
    rw [← Option.not_isNone, Bool.not_eq_true', ← Bool.not_eq_true, empty, not_not]
  cases best : turn.find? fun ri => (lanes[ri]?.bind (·.run.head)).isSome with
  | none =>
    intro r run head
    have headless := find?_eq_none.mp best r ((mem r).mpr run)
    exact headless ((hasHead r run).mpr head)
  | some b =>
    obtain ⟨headB, before, after, split, skipped⟩ := find?_eq_some_iff_append.mp best
    have runB : b < vols.length := (mem b).mp (by simp [split])
    refine ⟨runB, (hasHead b runB).mp headB, fun r run head apart => .inl ?_⟩
    have distinct : turn.Nodup := perm.nodup_iff.mpr nodup_range
    rw [split] at distinct
    have outB : b ∉ before := fun inside => (nodup_append.mp distinct).2.2 b inside b (by simp) rfl
    have outR : r ∉ before := by
      intro inside
      have headless := skipped r inside
      rw [(hasHead r run).mpr head] at headless
      cases headless
    rw [rowCmp, found, split]
    simp only [Nat.compare_eq_lt]
    rw [idxOf_append_of_notMem outB, idxOf_append_of_notMem outR, idxOf_cons_self,
      idxOf_cons_ne _ apart.symm]
    omega

/-- What choosing a head does: the runs skim what is gone, and the chosen one is the first of
    those that are left. -/
theorem Follows.nextHead {pos : Nat → Nat} (follows : Follows q vols pos s.lanes)
    (steady : ∀ vol ∈ vols, Steady q.sort vol) (bound : ∀ r < vols.length, pos r ≤ held q vols r) (page : Nat) :
    ∃ next, Skims (held q vols) vols.length (fun x => goneAt vols page x = true) pos next ∧
      Follows q vols next (nextHead q.sort (turnOf q.sort vols) page s).1.lanes ∧
      BestOf q vols next vols.length (nextHead q.sort (turnOf q.sort vols) page s).2 ∧
      (s.consumed = ((range vols.length).map pos).sum →
        (nextHead q.sort (turnOf q.sort vols) page s).1.consumed = ((range vols.length).map next).sum) := by
  have skims := follows.skims bound page
  have stepped := follows.stepPast page
  refine ⟨_, skims, ?_⟩
  have fresh : Fresh q vols page (steppedTo s.lanes page) := by
    intro r vol h volAt hit
    have run : r < vols.length := (List.getElem?_eq_some_iff.mp volAt).1
    have inside : steppedTo s.lanes page r < held q vols r := by
      rw [held_eq q volAt]
      exact (List.getElem?_eq_some_iff.mp hit).1
    have there := skims.head r run inside
    simp only [goneAt_eq volAt (getElem?_firstHits hit)] at there
    exact Bool.eq_false_iff.mpr there
  have counted := fun total => follows.counted total page
  unfold Daemon.nextHead
  cases heads : turnOf q.sort vols with
  | some turn => exact ⟨stepped, stepped.turn heads, counted⟩
  | none =>
    have length : (s.stepPast page).lanes.length = vols.length := stepped.length
    have all : ∀ k ≤ vols.length, ∃ lanes best,
        (range k).foldl (Daemon.pickBest q.sort page) ((s.stepPast page).lanes, none) = (lanes, best) ∧
        Follows q vols (steppedTo s.lanes page) lanes ∧
        BestOf q vols (steppedTo s.lanes page) k best := by
      intro k le
      induction k with
      | zero => exact ⟨_, _, rfl, stepped, fun r lt => absurd lt (by omega)⟩
      | succ k ih =>
        obtain ⟨lanes, best, eq, follows', sofar⟩ := ih (by omega)
        obtain ⟨follows'', better⟩ := follows'.pickBest steady fresh heads (by omega) sofar
        refine ⟨_, _, ?_, follows'', better⟩
        rw [range_succ, foldl_append, eq]
        rfl
    obtain ⟨lanes, best, eq, follows', sofar⟩ := all _ le_rfl
    simp only [length, eq]
    exact ⟨follows', sofar, counted⟩

end Goz.Daemon
