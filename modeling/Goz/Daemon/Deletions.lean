import Goz.Daemon.Window
import Goz.Index.Cycles

namespace Goz.Daemon

open Function Merge VolumeIndex List Externals

section Hypotheses

variable [Externals]

/-- What a search hands over for a volume with hits: entries of its index that have a path, in the
    order of `sort`. Slots are 32-bit numbers. -/
structure Searched.Scanned (sort : SortSpec) (vol : Searched) : Prop where
  reachable : ∃ rootFrn, Reachable rootFrn vol.scanned
  found : vol.hits ≠ []
  few : vol.hits.length ≤ u32Max
  present : ∀ h ∈ vol.hits, vanished vol.scanned h = false
  shown : ∀ h ∈ vol.hits, ∃ parent path, vol.scanned.entries.parent h.idx = some parent ∧
    shownPath vol.scanned parent = some path
  ordered : vol.hits.Pairwise fun a b => cmpKeys sort.dir (rowKey sort vol.scanned vol.mountPrefix a.idx)
    (rowKey sort vol.scanned vol.mountPrefix b.idx) ≠ .gt

/-- Between the scan and each page, entries are removed and nothing else. -/
structure Searched.OnlyRemovals (vol : Searched) : Prop where
  first : Dwindles vol.scanned (vol.later 0)
  next : ∀ page, Dwindles (vol.later page) (vol.later (page + 1))

def Searched.FoldersKept (vol : Searched) : Prop :=
  ∀ page, ∀ h ∈ vol.hits, vanished (vol.later page) h = false → Sheltered vol.scanned (vol.later page) h.idx

def windowRows (q : QueryRequest) (vols : List Searched) : List Spot :=
  let from_ := (mergedRows q.sort vols).drop q.offset.toNat
  match q.limit with
  | none => from_
  | some limit => from_.take limit.toNat

def LastStays (q : QueryRequest) (vols : List Searched) : Prop :=
  ∀ limit, q.limit = some limit →
    ((range vols.length).map (held q vols)).sum ≤ q.offset.toNat + limit.toNat ∨
    ∃ x, (mergedRows q.sort vols)[q.offset.toNat + limit.toNat - 1]? = some x ∧ ∀ page, goneAt vols page x = false

end Hypotheses

section Steady

variable [Externals] {vol : Searched} {sort : SortSpec} {ix ix' : VolumeIndex} {h : HitRef} {page : Nat}

theorem vanished_eq_false (ok : ix.Integrity) :
    vanished ix h = false ↔ ix.Live h.idx ∧ ix.entries.frn h.idx = h.frn := by
  have inside := ok.slots.live_lt h.idx
  unfold vanished entryIfFrn
  by_cases live : ix.Live h.idx
  · have alive : ix.entries.isTombstone h.idx = false := live
    have bound := inside live
    simp [live, alive, Nat.not_le.mpr bound]
  · have dead : ix.entries.isTombstone h.idx = true := by simpa [VolumeIndex.Live, EntryTable.Live] using live
    simp [live, dead]

theorem Searched.OnlyRemovals.dwindles (removals : vol.OnlyRemovals) (page : Nat) :
    Dwindles vol.scanned (vol.later page) := by
  induction page with
  | zero => exact removals.first
  | succ page ih => exact ih.trans (removals.next page)

theorem Searched.Scanned.thinned (scanned : vol.Scanned sort) (removals : vol.OnlyRemovals) (page : Nat) :
    (vol.later page).Invariant ∧ Thinned vol.scanned (vol.later page) := by
  obtain ⟨rootFrn, reachable⟩ := scanned.reachable
  exact (removals.dwindles page).thinned reachable.invariant

theorem rowKey_thinned (thinned : Thinned ix ix') {idx : EntryIdx} (sheltered : Sheltered ix ix' idx)
    (sort : SortSpec) (mount : Bytes) : rowKey sort ix' mount idx = rowKey sort ix mount idx := by
  have same := thinned.same idx (sheltered 0 idx rfl)
  have path : ix'.parentPath idx = ix.parentPath idx := by
    unfold parentPath
    rw [thinned.parent_eq sheltered]
    cases at_ : ix.entries.parent idx with
    | none => rfl
    | some p => simp only [thinned.pathOf_eq (sheltered.parent at_)]
  simp only [rowKey, sizeAt, mtimeAt, pathKey, path, same.size, same.mtime, same.foldedName, same.rawName]

theorem Searched.Scanned.steady (scanned : vol.Scanned sort) (removals : vol.OnlyRemovals) (kept : vol.FoldersKept) :
    Steady sort vol where
  gone page h _ gone := by
    obtain ⟨inv, -⟩ := scanned.thinned removals page
    obtain ⟨inv', thinned⟩ := (removals.next page).thinned inv
    by_contra there
    obtain ⟨live, own⟩ := (vanished_eq_false inv'.integrity).mp (Bool.eq_false_iff.mpr there)
    have before := (vanished_eq_false (h := h) inv.integrity).mpr
      ⟨thinned.live _ live, by rw [← (thinned.same _ live).frn, own]⟩
    rw [gone] at before
    cases before
  key page h hit there :=
    rowKey_thinned (scanned.thinned removals page).2 (kept page h hit there) sort vol.mountPrefix
  shown page h hit there := by
    obtain ⟨-, thinned⟩ := scanned.thinned removals page
    have sheltered := kept page h hit there
    obtain ⟨parent, path, at_, shown⟩ := scanned.shown h hit
    refine ⟨parent, path, (thinned.parent_eq sheltered).trans at_, ?_⟩
    simpa only [shownPath, thinned.pathOf_eq (sheltered.parent at_)] using shown

end Steady

section Plan

variable [Externals] {q : QueryRequest} {vols : List Searched} {limit : UInt32}

theorem Searched.Scanned.sorted (scanned : ∀ vol ∈ vols, vol.Scanned q.sort) (len : Nat → Nat)
    (le : ∀ r vol, vols[r]? = some vol → len r ≤ vol.hits.length) : Sorted (rowCmp q.sort vols) len vols.length := by
  intro r run i j lt bound
  unfold rowCmp
  cases turnOf q.sort vols with
  | some turn => simp
  | none =>
    have volAt : vols[r]? = some vols[r] := getElem?_eq_getElem run
    have inside : j < vols[r].hits.length := lt_of_lt_of_le bound (le r _ volAt)
    have hitI := getElem?_eq_getElem (lt_trans lt inside)
    have hitJ := getElem?_eq_getElem inside
    simp only [keyAt_eq volAt hitI, keyAt_eq volAt hitJ]
    exact pairwise_iff_getElem.mp (scanned _ (mem_of_getElem? volAt)).ordered i j _ inside lt

omit [Externals] in
theorem openLanes_eq (found : ∀ vol ∈ vols, firstHits q vol ≠ []) :
    openLanes q vols = vols.map fun vol => { vol := vol, run := { refs := firstHits q vol } } := by
  apply filter_eq_self.mpr
  intro lane mem
  obtain ⟨vol, inside, rfl⟩ := mem_map.mp mem
  simpa using found vol inside

theorem follows_open (q : QueryRequest) (vols : List Searched) :
    Follows q vols (fun _ => 0) (vols.map fun vol => { vol := vol, run := { refs := firstHits q vol } }) where
  length := length_map _
  lane r vol volAt := ⟨_, by rw [getElem?_map, volAt]; rfl, rfl, rfl, rfl, by simp, by simp⟩

omit [Externals] in
theorem sum_held (q : QueryRequest) (vols : List Searched) :
    ((range vols.length).map (held q vols)).sum = (vols.map fun vol => (firstHits q vol).length).sum := by
  congr 1
  apply ext_getElem?
  intro r
  by_cases run : r < vols.length
  · simp [held, run]
  · simp [run]

theorem held_min (scanned : ∀ vol ∈ vols, vol.Scanned q.sort) (limited : q.limit = some limit) :
    held q vols = fun r => min ((vols[r]?.map (·.hits.length)).getD 0) (q.offset.toNat + limit.toNat) := by
  funext r
  cases volAt : vols[r]? with
  | none => simp [held, volAt]
  | some vol =>
    have few := (scanned vol (mem_of_getElem? volAt)).few
    simp only [held, volAt, firstHits, perVolLimit, limited, Option.map_some, Option.getD_some, length_take]
    omega

theorem heldRows_take (scanned : ∀ vol ∈ vols, vol.Scanned q.sort) (limited : q.limit = some limit) :
    (heldRows q vols).take (q.offset.toNat + limit.toNat) =
      (mergedRows q.sort vols).take (q.offset.toNat + limit.toNat) := by
  have full := Searched.Scanned.sorted scanned (fun r => (vols[r]?.map (·.hits.length)).getD 0) fun r vol volAt => by
    simp [volAt]
  rw [heldRows, held_min scanned limited]
  exact merged_take full _

theorem heldRows_all (unlimited : q.limit = none) : heldRows q vols = mergedRows q.sort vols := by
  have full : held q vols = fun r => (vols[r]?.map (·.hits.length)).getD 0 := by
    funext r
    simp [held, firstHits, perVolLimit, unlimited]
  rw [heldRows, full]
  rfl

variable {plan : Plan}

theorem planOf_eq (q : QueryRequest) (vols : List Searched) :
    planOf q (vols.map fun vol => { vol := vol, run := { refs := firstHits q vol } }) =
      { request := q
        turn := turnOf q.sort vols
        start := min q.offset.toNat (heldRows q vols).length
        stop := (q.limit.map fun l => min (min q.offset.toNat (heldRows q vols).length + l.toNat)
          (heldRows q vols).length).getD (heldRows q vols).length } := by
  have total : ((vols.map fun vol => ({ vol := vol, run := { refs := firstHits q vol } } : Lane)).map
      (·.run.refs.length)).sum = (heldRows q vols).length := by
    rw [heldRows, length_merged, sum_held, map_map]
    rfl
  simp only [planOf, total]
  simp only [turnOf, map_map]
  rfl

theorem planned_window (scanned : ∀ vol ∈ vols, vol.Scanned q.sort)
    (planned : planOf q (vols.map fun vol => { vol := vol, run := { refs := firstHits q vol } }) = plan) :
    ((heldRows q vols).take plan.stop).drop plan.start = windowRows q vols := by
  rw [← planned, planOf_eq]
  unfold windowRows
  cases limited : q.limit with
  | none =>
    simp only [Option.map_none, Option.getD_none, take_length, heldRows_all limited]
    rcases Nat.le_total q.offset.toNat (mergedRows q.sort vols).length with le | le
    · rw [Nat.min_eq_left le]
    · rw [Nat.min_eq_right le, drop_length, drop_of_length_le le]
  | some limit =>
    simp only [Option.map_some, Option.getD_some]
    rw [take_drop, ← heldRows_take scanned limited]
    rcases Nat.le_total q.offset.toNat (heldRows q vols).length with le | le
    · rw [Nat.min_eq_left le, ← take_eq_take_min]
    · have short : ((heldRows q vols).take (q.offset.toNat + limit.toNat)).length ≤ q.offset.toNat :=
        le_trans (length_take_le' _ _) le
      rw [Nat.min_eq_right le, Nat.min_eq_right (by omega), take_length, drop_length,
        drop_of_length_le short]

theorem planned_countable (scanned : ∀ vol ∈ vols, vol.Scanned q.sort)
    (planned : planOf q (vols.map fun vol => { vol := vol, run := { refs := firstHits q vol } }) = plan)
    (counts : q.offset = 0 ∧ q.limit = none ∨ LastStays q vols ∧ ∀ page,
      Orderly (rowCmp q.sort vols) (held q vols) vols.length fun x => goneAt vols page x = true) :
    Countable q vols plan := by
  rw [planOf_eq] at planned
  subst planned
  cases limited : q.limit with
  | none =>
    refine ⟨rfl, rfl, le_rfl, ?_, .inl rfl⟩
    rcases counts with ⟨zero, -⟩ | ⟨-, orderly⟩
    · exact .inl ⟨by simp [zero], rfl⟩
    · exact .inr orderly
  | some limit =>
    rcases counts with ⟨-, none_⟩ | ⟨last, orderly⟩
    · rw [limited] at none_
      cases none_
    · refine ⟨rfl, rfl, Nat.min_le_right _ _, .inr orderly, ?_⟩
      rcases last limit limited with covered | ⟨x, at_, stays⟩
      · have covered : (heldRows q vols).length ≤ q.offset.toNat + limit.toNat := length_merged.trans_le covered
        left
        simp only [Option.map_some, Option.getD_some]
        omega
      · by_cases zero : q.offset.toNat + limit.toNat = 0
        · have empty : (heldRows q vols).length = 0 := by
            rw [heldRows, length_merged, held_min scanned limited, zero]
            simp
          simp [empty]
        · have there : (heldRows q vols)[q.offset.toNat + limit.toNat - 1]? = some x := by
            have lt : q.offset.toNat + limit.toNat - 1 < q.offset.toNat + limit.toNat := by omega
            rw [← getElem?_take_of_lt lt, heldRows_take scanned limited, getElem?_take_of_lt lt, at_]
          have bound := (List.getElem?_eq_some_iff.mp there).1
          refine .inr ⟨x, ?_, stays⟩
          simp only [Option.map_some, Option.getD_some]
          rw [Nat.min_eq_left (show q.offset.toNat ≤ (heldRows q vols).length by omega), Nat.min_eq_left (by omega)]
          exact there

omit [Externals] in
theorem openLanes_none (nothing : perVolLimit q = some 0) : openLanes q vols = [] := by
  apply filter_eq_nil_iff.mpr
  intro lane mem
  obtain ⟨vol, -, rfl⟩ := mem_map.mp mem
  simp [firstHits, nothing]

theorem streamQuery_none (vols : List Searched) (summary : Proto.Summary) (nothing : perVolLimit q = some 0) :
    windowRows q vols = [] ∧
      ((streamQuery q summary vols).map fun page => page.rows.map fun row => (row.run, row.pos)) = [[]] := by
  obtain ⟨limit, limited, zero⟩ := Option.map_eq_some_iff.mp nothing
  have large : u32Max ≠ 0 := by decide
  have none_ : limit.toNat = 0 := by omega
  have plan : (planOf q []).stop = 0 := by simp [planOf, limited]
  constructor
  · simp [windowRows, limited, none_]
  · unfold streamQuery
    simp only [openLanes_none nothing, plan, streamPages]
    have idle : ∀ out, (fillPage (planOf q []) 0 Proto.pageRows { lanes := [], consumed := 0 } out).rows = [] := by
      intro out
      rw [show Proto.pageRows = 4095 + 1 from rfl, fillPage, if_neg (by simp [plan])]
    simp [idle]

end Plan

/-- Over all its pages a query sends the rows of its window in merged order, without those whose
    entry is gone when their page is built. -/
theorem pages_send_window [Externals] {q : QueryRequest} {vols : List Searched} (summary : Proto.Summary)
    (scanned : ∀ vol ∈ vols, vol.Scanned q.sort) (removals : ∀ vol ∈ vols, vol.OnlyRemovals)
    (kept : ∀ vol ∈ vols, vol.FoldersKept)
    (counts : q.offset = 0 ∧ q.limit = none ∨ LastStays q vols ∧ ∀ page,
      Orderly (rowCmp q.sort vols) (held q vols) vols.length fun x => goneAt vols page x = true) :
    ∃ chunks : List (List Spot), chunks.flatten = windowRows q vols ∧
      ((streamQuery q summary vols).map fun page => page.rows.map fun row => (row.run, row.pos)) =
        chunks.zipIdx.map fun chunk => chunk.1.filter fun x => !goneAt vols chunk.2 x := by
  have steady : ∀ vol ∈ vols, Steady q.sort vol := fun vol mem =>
    (scanned vol mem).steady (removals vol mem) (kept vol mem)
  by_cases nothing : perVolLimit q = some 0
  · obtain ⟨window, pages⟩ := streamQuery_none vols summary nothing
    exact ⟨[[]], by rw [window]; rfl, by rw [pages]; rfl⟩
  · have found : ∀ vol ∈ vols, firstHits q vol ≠ [] := by
      intro vol mem
      have hits := (scanned vol mem).found
      unfold firstHits
      cases limit : perVolLimit q with
      | none => exact hits
      | some n =>
        have pos : n ≠ 0 := fun zero => nothing (zero ▸ limit)
        simp [pos, hits]
    unfold streamQuery
    rw [openLanes_eq found]
    simp only
    generalize planned : planOf q (vols.map fun vol => { vol := vol, run := { refs := firstHits q vol } }) = plan
    have countable := planned_countable scanned planned counts
    have sorted := Searched.Scanned.sorted scanned (held q vols) fun r vol volAt => by
      rw [held_eq q volAt]
      exact (firstHits_isPrefix q vol).length_le
    have start : Reached q vols plan 0 (fun _ => 0) [] (heldRows q vols)
        { lanes := vols.map fun vol => { vol := vol, run := { refs := firstHits q vol } }, consumed := 0 } := by
      refine ⟨follows_open q vols, ⟨rfl, fun _ _ => Nat.zero_le _, by simp, fun x _ read => by simp at read⟩, by simp, ?_⟩
      exact Nat.zero_le _
    have sent := Reached.streamPages countable steady sorted summary start (.inr fun _ _ => Nat.zero_le _)
      (show plan.stop - 0 < plan.stop + 1 by omega)
    rw [← planned_window scanned planned]
    exact sent

def folderHit : HitRef := ⟨2, folderRecord.frn⟩

def emptiedIndex : VolumeIndex :=
  letI := ascii
  (folderIndex.applyBatch [{ folderRecord with reason := UsnReason.fileDelete }]).1

/-- Two drives with one folder `a` each; that of the first is deleted once the query has searched. -/
def twoDrives : List Searched :=
  [{ mountPrefix := [0x43, 0x3A, 0x5C], scanned := folderIndex, hits := [folderHit], later := fun _ => emptiedIndex },
   { mountPrefix := [0x44, 0x3A, 0x5C], scanned := folderIndex, hits := [folderHit], later := fun _ => folderIndex }]

def byNameFrom (offset : UInt32) (limit : Option UInt32) : QueryRequest where
  sort := ⟨.name, .asc⟩
  offset := offset
  limit := limit
  wantSize := false
  wantMtime := false

def noSummary : Proto.Summary := ⟨0, false, false, none⟩

theorem twoDrives_searched : letI := ascii
    ∀ vol ∈ twoDrives, vol.Scanned ⟨.name, .asc⟩ ∧ vol.OnlyRemovals ∧ vol.FoldersKept := by
  let _ := ascii
  have deletes : Dwindles folderIndex emptiedIndex := by
    apply Relation.ReflTransGen.single
    refine ⟨.applyBatch [{ folderRecord with reason := UsnReason.fileDelete }], ?_, rfl⟩
    intro op mem
    fin_cases mem <;> trivial
  have shown : ∃ parent path, folderIndex.entries.parent folderHit.idx = some parent ∧
      shownPath folderIndex parent = some path :=
    ⟨0, [], by decide, by decide⟩
  have present : vanished folderIndex folderHit = false := by decide
  have removed : vanished emptiedIndex folderHit = true := by decide
  have sheltered : Sheltered folderIndex folderIndex 2 := fun k top at_ =>
    reachable_folderIndex.invariant.integrity.ascend_live (by decide) at_
  intro vol mem
  rcases mem_cons.mp mem with rfl | mem
  · refine ⟨⟨⟨_, reachable_folderIndex⟩, by simp, by decide, by simpa using present, by simpa using shown, by simp⟩,
      ⟨deletes, fun _ => .refl⟩, ?_⟩
    intro page h hit there
    obtain rfl := mem_singleton.mp hit
    rw [removed] at there
    cases there
  · obtain rfl := mem_singleton.mp mem
    refine ⟨⟨⟨_, reachable_folderIndex⟩, by simp, by decide, by simpa using present, by simpa using shown, by simp⟩,
      ⟨.refl, fun _ => .refl⟩, ?_⟩
    intro page h hit _
    obtain rfl := mem_singleton.mp hit
    exact sheltered

theorem twoDrives_all_rows : letI := ascii
    ∃ chunks : List (List Spot), chunks.flatten = windowRows (byNameFrom 0 none) twoDrives ∧
      ((streamQuery (byNameFrom 0 none) noSummary twoDrives).map fun page => page.rows.map fun row => (row.run, row.pos)) =
        chunks.zipIdx.map fun chunk => chunk.1.filter fun x => !goneAt twoDrives chunk.2 x :=
  letI := ascii
  pages_send_window noSummary (fun vol mem => (twoDrives_searched vol mem).1)
    (fun vol mem => (twoDrives_searched vol mem).2.1) (fun vol mem => (twoDrives_searched vol mem).2.2)
    (.inl ⟨rfl, rfl⟩)

/-- The folder of the first drive is gone and counted, and the one row the limit allows is then
    taken from beyond the window. -/
theorem twoDrives_limit_overrun : letI := ascii
    (∀ vol ∈ twoDrives, vol.Scanned ⟨.name, .asc⟩ ∧ vol.OnlyRemovals ∧ vol.FoldersKept) ∧
      windowRows (byNameFrom 0 (some 1)) twoDrives = [(0, 0)] ∧
      ((streamQuery (byNameFrom 0 (some 1)) noSummary twoDrives).map
        fun page => page.rows.map fun row => (row.run, row.pos)) = [[(1, 0)]] := by
  let _ := ascii
  refine ⟨twoDrives_searched, ?_, ?_⟩
  · decide +kernel
  · decide +kernel

end Goz.Daemon
