import Goz.Daemon.Memo

namespace Goz.Daemon

open Function VolumeIndex Ascent List Option Externals

variable {i n : Nat} {folderName : Bytes} {h : HitRef}

section OneFolder

open Proto (pageRows)

variable {vol : Searched} {folder : EntryIdx} {path : Bytes} {generation rowBytes page : Nat}
  {lane : Lane} {plan : Plan} {run : Run} {k : Nat}

/-- All hits of the volume lie in one folder and stay there, in indexes of one generation, and no
    page is full before it has all its rows. -/
structure OneFolder (vol : Searched) (folder : EntryIdx) (path : Bytes) (generation rowBytes : Nat) : Prop where
  there : ∀ page, ∀ h ∈ vol.hits, vanished (vol.later page) h = false
  parent : ∀ page, ∀ h ∈ vol.hits, (vol.later page).entries.parent h.idx = some folder
  generation : ∀ page, (vol.later page).generation = generation
  first : shownPath (vol.later 0) folder = some path
  short : ∀ page, ∀ h ∈ vol.hits,
    (vol.mountPrefix ++ joinPath path ((vol.later page).rawName h.idx)).length + 21 ≤ rowBytes
  small : path.length ≤ pathMemoCapBytes
  room : 34 + Proto.pageRows * rowBytes < pageByteBudget

structure Run.Recalls (run : Run) (folder : EntryIdx) (path : Bytes) (generation : Nat) : Prop where
  memo : run.memo folder = some (some path)
  generation : run.memoGeneration = generation
  bytes : run.memoBytes ≤ pathMemoCapBytes

def Run.Ready (run : Run) (folder : EntryIdx) (path : Bytes) (generation page : Nat) : Prop :=
  run.Recalls folder path generation ∨ page = 0 ∧ (∀ f, run.memo f = none) ∧ run.memoBytes = 0

theorem Run.Ready.takeHead (ready : run.Ready folder path generation page) :
    run.takeHead.Ready folder path generation page :=
  ready.imp (fun recalls => { recalls with }) id

theorem Run.Recalls.rowPath (recalls : run.Recalls folder path generation) {index : VolumeIndex}
    (same : index.generation = generation) (name mount : Bytes) :
    run.rowPath index folder name mount = (run, some (mount ++ joinPath path name)) := by
  have valid : ¬ (run.memoGeneration ≠ index.generation ∨ run.memoBytes > pathMemoCapBytes) := by
    rw [recalls.generation, same]
    have bytes := recalls.bytes
    omega
  simp only [Run.rowPath, Run.refresh, if_neg valid, Run.memoize, recalls.memo]
  simp [joinPath]

theorem OneFolder.rowPath (one : OneFolder vol folder path generation rowBytes)
    (ready : run.Ready folder path generation page) (name mount : Bytes) :
    (run.rowPath (vol.later page) folder name mount).1.Recalls folder path generation ∧
      (run.rowPath (vol.later page) folder name mount).2 = some (mount ++ joinPath path name) := by
  rcases ready with recalls | ⟨rfl, empty, bytes⟩
  · rw [recalls.rowPath (one.generation page)]
    exact ⟨recalls, rfl⟩
  · have nothing : (run.refresh (vol.later 0)).memo folder = none := by
      unfold Run.refresh
      split
      · rfl
      · exact empty folder
    have current : (run.refresh (vol.later 0)).memoGeneration = generation := by
      unfold Run.refresh
      split
      case isTrue => exact one.generation 0
      case isFalse valid =>
        push Not at valid
        exact valid.1.trans (one.generation 0)
    have none_ : (run.refresh (vol.later 0)).memoBytes = 0 := by
      unfold Run.refresh
      split
      · rfl
      · exact bytes
    simp only [Run.rowPath, Run.memoize, nothing, one.first]
    refine ⟨⟨update_self .., current, ?_⟩, by simp [joinPath]⟩
    simp only [none_, map_some, getD_some, Nat.zero_add]
    exact one.small

theorem pos_rowPath (run : Run) (index : VolumeIndex) (parent : EntryIdx) (name mount : Bytes) :
    (run.rowPath index parent name mount).1.pos = run.pos := by
  simp only [Run.rowPath, Run.memoize, Run.refresh]
  split <;> split <;> rfl

structure Lane.Alone (lane : Lane) (vol : Searched) (folder : EntryIdx) (path : Bytes) (generation page i : Nat) :
    Prop where
  source : lane.vol = vol
  refs : lane.run.refs = vol.hits
  pos : lane.run.pos = i
  ready : lane.run.Ready folder path generation page

theorem length_pushSent (out : Bytes) (row : Sent) : (pushSent out row).length ≤ out.length + row.path.length + 21 := by
  unfold pushSent Proto.pushItem
  cases row.size <;> cases row.mtime <;> simp <;> omega

theorem length_frameStart (summary : Proto.Summary) : (frameStart summary).length ≤ 34 := by
  unfold frameStart Proto.pushResultsHeader
  cases summary.totalSize <;> simp

def Recalled (vol : Searched) (path : Bytes) (page k : Nat) (h : HitRef) (row : Sent) : Prop :=
  row.pos = k ∧ row.path = vol.mountPrefix ++ joinPath path ((vol.later page).rawName h.idx)

theorem Lane.Alone.takeRow (one : OneFolder vol folder path generation rowBytes)
    (alone : lane.Alone vol folder path generation page i) (start : plan.start = 0)
    (at_ : vol.hits[i]? = some h) :
    ∃ lane' row, Daemon.takeRow plan page ⟨[lane], i⟩ 0 = (⟨[lane'], i + 1⟩, some row) ∧
      lane'.Alone vol folder path generation page (i + 1) ∧ lane'.run.Recalls folder path generation ∧
      Recalled vol path page i h row := by
  have mem := mem_of_getElem? at_
  have head : lane.run.head = some h := by
    rw [Run.head, alone.refs, alone.pos]
    exact at_
  have guard : lane.guard page = vol.later page := by rw [Lane.guard, alone.source]
  obtain ⟨recalls, shown⟩ := one.rowPath alone.ready.takeHead ((vol.later page).rawName h.idx)
    vol.mountPrefix
  have above : ¬ i + 1 ≤ plan.start := by omega
  simp only [Daemon.takeRow, getElem?_cons_zero, head, if_neg above, buildRow, Lane.guard, alone.source,
    one.parent page h mem, shown, map_some, set_cons_zero]
  refine ⟨_, _, rfl, ⟨rfl, ?_, ?_, .inl recalls⟩, recalls, ?_, rfl⟩
  · rw [refs_rowPath]
    exact alone.refs
  · rw [pos_rowPath]
    exact congrArg (· + 1) alone.pos
  · show lane.run.pos + 1 - 1 = i
    rw [alone.pos]
    omega

variable [Externals]

theorem nextHead_alone (sort : SortSpec) (head : lane.run.head = some h)
    (there : vanished (lane.guard page) h = false) (consumed : Nat) :
    nextHead sort none page ⟨[lane], consumed⟩ = (⟨[lane], consumed⟩, some 0) := by
  have stays : lane.vanishedHeads page = 0 := by
    obtain ⟨bound, at_⟩ := List.getElem?_eq_some_iff.mp head
    rw [Lane.vanishedHeads, drop_eq_getElem_cons bound, at_, takeWhile_cons, there]
    rfl
  have same : lane.stepPast page = lane := by
    rw [Lane.stepPast, stays]
    rfl
  simp [nextHead, Heads.stepPast, same, stays, pickBest, head]

variable (one : OneFolder vol folder path generation rowBytes)
include one

theorem Lane.Alone.fillPage (alone : lane.Alone vol folder path generation page i) (turn : plan.turn = none)
    (start : plan.start = 0) (stop : plan.stop = vol.hits.length) (inside : i ≤ vol.hits.length) (left : Nat)
    (out : Bytes) (room : out.length + left * rowBytes < pageByteBudget) :
    ∃ lane', (Daemon.fillPage plan page left ⟨[lane], i⟩ out).heads = ⟨[lane'], min (i + left) vol.hits.length⟩ ∧
      lane'.Alone vol folder path generation page (min (i + left) vol.hits.length) ∧
      (lane.run.Recalls folder path generation ∨ i < min (i + left) vol.hits.length →
        lane'.run.Recalls folder path generation) ∧
      ∀ k h, i ≤ k → k < i + left → vol.hits[k]? = some h →
        ∃ row ∈ (Daemon.fillPage plan page left ⟨[lane], i⟩ out).rows, Recalled vol path page k h row := by
  induction left generalizing lane i out with
  | zero =>
    rw [Nat.add_zero, Nat.min_eq_left inside]
    exact ⟨lane, rfl, alone, (·.resolve_right (lt_irrefl i)), fun k h from_ to_ => by omega⟩
  | succ left ih =>
    have budget : out.length < pageByteBudget := by omega
    by_cases last : i = vol.hits.length
    · have done : ¬ (i < plan.stop ∧ out.length < pageByteBudget) := by omega
      rw [Daemon.fillPage, if_neg done, Nat.min_eq_right (by omega), ← last]
      refine ⟨lane, rfl, alone, (·.resolve_right (lt_irrefl i)), fun k h from_ to_ at_ => ?_⟩
      have bound := (List.getElem?_eq_some_iff.mp at_).1
      omega
    · have more : i < vol.hits.length := by omega
      have at_ : vol.hits[i]? = some vol.hits[i] := getElem?_eq_getElem more
      have head : lane.run.head = some vol.hits[i] := by
        rw [Run.head, alone.refs, alone.pos]
        exact at_
      have there : vanished (lane.guard page) vol.hits[i] = false := by
        rw [Lane.guard, alone.source]
        exact one.there page _ (getElem_mem more)
      obtain ⟨next, row, taken, alone', recalls, recalled⟩ := alone.takeRow one start at_
      have grown : (pushSent out row).length + left * rowBytes < pageByteBudget := by
        have pushed := length_pushSent out row
        have short := one.short page _ (getElem_mem more)
        rw [← recalled.2] at short
        rw [Nat.succ_mul] at room
        omega
      obtain ⟨lane', heads, stands, kept, rows⟩ := ih alone' more (pushSent out row) grown
      rw [Daemon.fillPage, if_pos (show i < plan.stop ∧ out.length < pageByteBudget by omega), turn,
        nextHead_alone _ head there]
      rw [Nat.add_right_comm, Nat.add_assoc] at heads stands
      simp only [taken]
      refine ⟨lane', heads, stands, fun _ => kept (.inl recalls), fun k h from_ to_ hitAt => ?_⟩
      rcases Nat.eq_or_lt_of_le from_ with rfl | later
      · obtain rfl := some.inj (at_.symm.trans hitAt)
        exact ⟨row, by simp, recalled⟩
      · obtain ⟨other, mem, shown⟩ := rows k h later (by omega) hitAt
        exact ⟨other, by simp [mem], shown⟩

theorem Lane.Alone.streamPages (alone : lane.Alone vol folder path generation page (page * pageRows))
    (turn : plan.turn = none) (start : plan.start = 0) (stop : plan.stop = vol.hits.length)
    (inside : page * pageRows ≤ vol.hits.length) (summary : Proto.Summary) (fuel : Nat)
    (enough : vol.hits.length < fuel + page * pageRows)
    (from_ : page * pageRows ≤ k) (at_ : vol.hits[k]? = some h) :
    ∃ answer, (Daemon.streamPages plan summary fuel page ⟨[lane], page * pageRows⟩)[k / pageRows - page]? =
      some answer ∧ ∃ row ∈ answer.rows, Recalled vol path (k / pageRows) k h row := by
  have bound := (List.getElem?_eq_some_iff.mp at_).1
  have rows : pageRows = 4096 := rfl
  induction fuel generalizing lane page with
  | zero => omega
  | succ fuel ih =>
    have room : (frameStart summary).length + pageRows * rowBytes < pageByteBudget := by
      have header := length_frameStart summary
      have budget := one.room
      omega
    obtain ⟨lane', heads, alone', recalls, sent⟩ := alone.fillPage one turn start stop inside pageRows _ room
    unfold Daemon.streamPages
    by_cases here : k < page * pageRows + pageRows
    · have same : k / pageRows = page := Nat.div_eq_of_lt_le from_ (by
        rw [Nat.succ_mul]
        exact here)
      rw [same, Nat.sub_self]
      exact ⟨_, rfl, sent k h from_ here at_⟩
    · have reached : min (page * pageRows + pageRows) vol.hits.length = (page + 1) * pageRows := by
        rw [Nat.succ_mul]
        omega
      rw [reached] at heads alone' recalls
      have beyond : page + 1 ≤ k / pageRows := by
        rw [Nat.le_div_iff_mul_le (by decide)]
        omega
      have more : (page + 1) * pageRows < plan.stop := by omega
      have next : lane'.Alone vol folder path generation (page + 1) ((page + 1) * pageRows) :=
        ⟨alone'.source, alone'.refs, alone'.pos, .inl (recalls (.inr (by omega)))⟩
      obtain ⟨answer, answerAt, shown⟩ := ih next (by omega) (by omega) (by omega)
      refine ⟨answer, ?_, shown⟩
      rw [show k / pageRows - page = (k / pageRows - (page + 1)) + 1 by omega, List.getElem?_cons_succ]
      simp only [heads, decide_eq_true more, if_true]
      exact answerAt

theorem rows_recall_first_path {q : QueryRequest}
    (key : q.sort.key ≠ .path) (offset : q.offset = 0) (limit : q.limit = none) (summary : Proto.Summary) (at_ : vol.hits[k]? = some h) :
    ∃ answer, (streamQuery q summary [vol])[k / pageRows]? = some answer ∧
      ∃ row ∈ answer.rows, Recalled vol path (k / pageRows) k h row := by
  have bound := (List.getElem?_eq_some_iff.mp at_).1
  have all : firstHits q vol = vol.hits := by simp [firstHits, perVolLimit, limit]
  have opened : openLanes q [vol] = [{ vol := vol, run := { refs := vol.hits } }] := by
    have some_ : vol.hits ≠ [] := ne_nil_of_length_pos (by omega)
    simp [openLanes, all, some_]
  have alone : ({ vol := vol, run := { refs := vol.hits } } : Lane).Alone vol folder path generation 0
      (0 * pageRows) :=
    ⟨rfl, rfl, (Nat.zero_mul _).symm, .inr ⟨rfl, fun _ => rfl, rfl⟩⟩
  have stop : (planOf q (openLanes q [vol])).stop = vol.hits.length := by simp [planOf, opened, limit]
  have turn : (planOf q (openLanes q [vol])).turn = none := by simp [planOf, key]
  obtain ⟨answer, answerAt, shown⟩ := alone.streamPages one turn (by simp [planOf, offset]) stop (by omega) summary (vol.hits.length + 1) (by omega)
    (by omega) at_
  rw [Nat.zero_mul, Nat.sub_zero] at answerAt
  refine ⟨answer, ?_, shown⟩
  unfold streamQuery
  simp only [stop]
  rw [opened] at answerAt ⊢
  exact answerAt

end OneFolder

def fileRecord (i : Nat) : ParsedUsnRecord where
  majorVersion := 2
  frn := ⟨0x0001000000000007 + UInt64.ofNat i⟩
  parentFrn := folderRecord.frn
  usn := 0
  timestampFt := 0
  reason := UsnReason.fileCreate
  attributes := 0
  name := [UInt8.ofNat (0x30 + i / 1000), UInt8.ofNat (0x30 + i / 100 % 10), UInt8.ofNat (0x30 + i / 10 % 10),
    UInt8.ofNat (0x30 + i % 10)]
  nameLossy := false

def crowd (folderName : Bytes) (n : Nat) : VolumeIndex :=
  letI := ascii
  (range n).foldl (fun ix i => ix.insertEnum (fileRecord i))
    ((new ntfsRootFrn (.sparse [])).insertEnum { folderRecord with name := folderName })

structure Crowd (folderName : Bytes) (n : Nat) (ix : VolumeIndex) : Prop where
  reachable : letI := ascii; Reachable ntfsRootFrn ix
  generation : ix.generation = 0
  free : ix.entries.free = []
  capacity : ix.entries.capacity = 3 + n
  unseen : ∀ r, 7 + n ≤ r → ix.byFrn.get r = none
  folder : ix.headOf folderRecord.frn = some 2
  rootLive : ix.Live 0
  folderLive : ix.Live 2
  root : ix.entries.parent 0 = none
  parent : ix.entries.parent 2 = some 0
  name : ix.rawName 2 = folderName
  files : ∀ i < n, ix.Live (3 + i) ∧ ix.entries.frn (3 + i) = (fileRecord i).frn ∧
    ix.entries.parent (3 + i) = some 2 ∧ ix.rawName (3 + i) = (fileRecord i).name

theorem recordNumber_fileRecord (small : i < 5000) : (fileRecord i).frn.recordNumber = 7 + i := by
  have mask : (0x0000FFFFFFFFFFFF : UInt64).toNat = 2 ^ 48 - 1 := rfl
  have base : (0x0001000000000007 : UInt64).toNat = 2 ^ 48 + 7 := rfl
  simp only [fileRecord, Frn.recordNumber, UInt64.toNat_and, mask, Nat.and_two_pow_sub_one_eq_mod, UInt64.toNat_add, base,
    UInt64.toNat_ofNat']
  omega

theorem Crowd.empty (named : folderName = [0x61] ∨ folderName = [0x62]) : Crowd folderName 0 (crowd folderName 0) := by
  let _ := ascii
  have map : (crowd folderName 0).byFrn = .sparse [(6, 2), (5, 0)] := by rcases named with rfl | rfl <;> rfl
  refine ⟨?_, ?_, ?_, ?_, fun r past => ?_, ?_, ?_, ?_, ?_, ?_, ?_, fun i lt => absurd lt (by omega)⟩
  · exact .step (.insertEnum { folderRecord with name := folderName }) (.new fun _ => rfl) trivial
  all_goals try (rcases named with rfl | rfl <;> decide)
  have six : (r == 6) = false := beq_false_of_ne (by omega)
  have five : (r == 5) = false := beq_false_of_ne (by omega)
  simp [map, FrnMap.get, List.lookup_cons, six, five]

theorem Crowd.insertEnum {ix : VolumeIndex} (crowd : Crowd folderName n ix)
    (small : n < 5000) : letI := ascii; Crowd folderName (n + 1) (ix.insertEnum (fileRecord n)) := by
  let _ := ascii
  have record := recordNumber_fileRecord small
  have unseen : ix.byFrn.get (fileRecord n).frn.recordNumber = none := crowd.unseen _ (by omega)
  have slot : ix.entries.nextSlot = 3 + n := by simp [EntryTable.nextSlot, crowd.free, crowd.capacity]
  have added := crowd.reachable.invariant.integrity.newEntry (fileRecord n).frn (fileRecord n).name
    { dir := (fileRecord n).isDir, nonUnicodeName := (fileRecord n).nameLossy } sizeUnknown mtimeUnknown crowd.folderLive rfl
  have folder : ix.headOf (fileRecord n).parentFrn = some 2 := crowd.folder
  have inserted := upsertLink_unseen unseen folder (fileRecord n).name (fileRecord n).nameLossy (fileRecord n).isDir
  have reachable : Reachable ntfsRootFrn (ix.insertEnum (fileRecord n)) :=
    .step (.insertEnum (fileRecord n)) crowd.reachable trivial
  rw [VolumeIndex.insertEnum, inserted] at reachable ⊢
  refine ⟨reachable, added.frame.generation.trans crowd.generation, ?_, ?_, fun r past => ?_, ?_, ?_, ?_, ?_, ?_, ?_,
    fun i lt => ?_⟩
  · show ix.entries.free.tail = []
    rw [crowd.free]
    rfl
  · show (if ix.entries.free.isEmpty then ix.entries.capacity + 1 else ix.entries.capacity) = _
    rw [crowd.free, crowd.capacity]
    rfl
  · rw [FrnMap.get_set, if_neg (by omega)]
    exact crowd.unseen r (by omega)
  · obtain ⟨first, own⟩ := headOf_some_iff.mp crowd.folder
    refine headOf_some_iff.mpr ⟨?_, (added.same 2 crowd.folderLive).frn.trans own⟩
    rw [FrnMap.get_set, if_neg, first]
    intro same
    rw [same, unseen] at first
    cases first
  · exact (added.live 0).mpr (.inl crowd.rootLive)
  · exact (added.live 2).mpr (.inl crowd.folderLive)
  · exact (added.parents 0 crowd.rootLive).trans crowd.root
  · exact (added.parents 2 crowd.folderLive).trans crowd.parent
  · exact (added.same 2 crowd.folderLive).rawName.trans crowd.name
  · rcases Nat.lt_succ_iff_lt_or_eq.mp lt with old | rfl
    · obtain ⟨live, frn, parent, name⟩ := crowd.files i old
      exact ⟨(added.live _).mpr (.inl live), (added.same _ live).frn.trans frn, (added.parents _ live).trans parent,
        (added.same _ live).rawName.trans name⟩
    · rw [← slot]
      exact ⟨(added.live _).mpr (.inr rfl), added.entry.frn, added.entry.parent, added.entry.rawName⟩

theorem crowd_holds (named : folderName = [0x61] ∨ folderName = [0x62])
    (small : n ≤ 5000) : Crowd folderName n (crowd folderName n) := by
  induction n with
  | zero => exact .empty named
  | succ n ih =>
    have grown := (ih (by omega)).insertEnum (by omega)
    unfold crowd at grown ⊢
    rw [range_succ, foldl_concat]
    exact grown

section Paths

variable {ix : VolumeIndex} (crowd : Crowd folderName n ix)
include crowd

theorem Crowd.root_eq : ix.root = 0 := by
  let _ := ascii
  exact crowd.reachable.root_eq

theorem Crowd.pathOf_root : ix.pathOf 0 [] = (.ok, []) := by
  let _ := ascii
  have apart := crowd.reachable.invariant.integrity.apart
  rw [crowd.root_eq] at apart
  have tops : ix.Tops 0 0 := ⟨⟨0, by decide, rfl⟩, crowd.root⟩
  have chain : trail ix.entries.parent maxPathHops 0 = [0] := by
    rw [show maxPathHops = 4095 + 1 from rfl, trail, crowd.root]
  rw [tops.pathOf crowd.rootLive, if_neg apart, chain]
  simp [pushComponent, crowd.root_eq]

theorem Crowd.pathOf_folder : ix.pathOf 2 [] = (.ok, folderName) := by
  have way : ascend ix.entries.parent 1 2 = some 0 := (ascend_one 2).trans crowd.parent
  have built := pathOf_child crowd.folderLive crowd.parent (by simp [crowd.root_eq]) (fun k top at_ _ => by
    have le := le_of_top way crowd.root at_
    unfold maxPathHops
    omega) (by rw [crowd.pathOf_root])
  rw [built, crowd.pathOf_root, crowd.name]
  rfl

theorem Crowd.ascend_file (lt : i < n) :
    ascend ix.entries.parent 2 (3 + i) = some 0 := by
  rw [ascend_succ, (crowd.files i lt).2.2.1, bind_some, ascend_one]
  exact crowd.parent

theorem Crowd.pathOf_file (lt : i < n) :
    ix.pathOf (3 + i) [] = (.ok, joinPath folderName (fileRecord i).name) := by
  obtain ⟨live, -, parent, name⟩ := crowd.files i lt
  have built := pathOf_child live parent (by simp [crowd.root_eq]) (fun k top at_ _ => by
    have le := le_of_top (crowd.ascend_file lt) crowd.root at_
    unfold maxPathHops
    omega) (by rw [crowd.pathOf_folder])
  rw [built, crowd.pathOf_folder, name]

theorem Crowd.vanished_file (lt : i < n) :
    vanished ix ⟨3 + i, (fileRecord i).frn⟩ = false := by
  obtain ⟨live, frn, -, -⟩ := crowd.files i lt
  have alive : ix.entries.isTombstone (3 + i) = false := live
  have bound : 3 + i < ix.entries.capacity := by
    rw [crowd.capacity]
    exact Nat.add_lt_add_left lt 3
  simp [vanished, entryIfFrn, alive, frn, bound]

end Paths

/-- `n` files in a folder `a`, which is `b` in the index a rescan puts in place once the first page
    is sent. -/
def rescanned (n : Nat) : Searched where
  mountPrefix := [0x43, 0x3A, 0x5C]
  scanned := crowd [0x61] n
  hits := (range n).map fun i => ⟨3 + i, (fileRecord i).frn⟩
  later page := crowd (if page = 0 then [0x61] else [0x62]) n

section Rescanned

variable (small : n ≤ 5000)

include small in
theorem rescanned_crowd (page : Nat) : Crowd (if page = 0 then [0x61] else [0x62]) n ((rescanned n).later page) := by
  apply crowd_holds _ small
  split
  · exact .inl rfl
  · exact .inr rfl

theorem mem_rescanned (mem : h ∈ (rescanned n).hits) : ∃ i < n, h = ⟨3 + i, (fileRecord i).frn⟩ := by
  obtain ⟨i, inside, rfl⟩ := mem_map.mp mem
  exact ⟨i, mem_range.mp inside, rfl⟩

include small in
theorem rescanned_served : letI := ascii; (rescanned n).Served := by
  let _ := ascii
  have scanned : Crowd [0x61] n (rescanned n).scanned := crowd_holds (.inl rfl) small
  refine ⟨⟨_, scanned.reachable⟩, fun page => ⟨_, (rescanned_crowd small page).reachable⟩, fun h mem => ?_⟩
  obtain ⟨i, -, rfl⟩ := mem_rescanned mem
  rw [scanned.root_eq]
  simp

include small in
theorem rescanned_shallow : (rescanned n).Shallow := by
  intro page h mem _ k top at_ _
  obtain ⟨i, lt, rfl⟩ := mem_rescanned mem
  have le := le_of_top ((rescanned_crowd small page).ascend_file lt) (rescanned_crowd small page).root at_
  unfold maxPathHops
  omega

include small in
theorem rescanned_oneFolder : OneFolder (rescanned n) 2 [0x61] 0 30 := by
  refine ⟨fun page h mem => ?_, fun page h mem => ?_, fun page => (rescanned_crowd small page).generation, ?_,
    fun page h mem => ?_, by decide, by decide⟩
  · obtain ⟨i, lt, rfl⟩ := mem_rescanned mem
    exact (rescanned_crowd small page).vanished_file lt
  · obtain ⟨i, lt, rfl⟩ := mem_rescanned mem
    exact ((rescanned_crowd small page).files i lt).2.2.1
  · rw [shownPath, (rescanned_crowd small 0).pathOf_folder]
    rfl
  · obtain ⟨i, lt, rfl⟩ := mem_rescanned mem
    rw [((rescanned_crowd small page).files i lt).2.2.2]
    simp [rescanned, joinPath, fileRecord]

end Rescanned

end Goz.Daemon
