import Goz.Daemon.Deletions

namespace Goz.Daemon

open Function VolumeIndex Ascent List Option

variable {vol : Searched} {page : Nat} {origins : List Lane} {s : Heads} {lane origin : Lane} {parent : EntryIdx}

def Searched.HasRow (vol : Searched) (page : Nat) (folder : EntryIdx) : Prop :=
  ∃ h ∈ vol.hits, vanished (vol.later page) h = false ∧ (vol.later page).entries.parent h.idx = some folder

def Searched.GenerationTells (vol : Searched) : Prop :=
  ∀ earlier page folder, earlier ≤ page → (vol.later earlier).generation = (vol.later page).generation →
    vol.HasRow earlier folder → vol.HasRow page folder →
    shownPath (vol.later earlier) folder = shownPath (vol.later page) folder

def Searched.Shallow (vol : Searched) : Prop :=
  ∀ page, ∀ h ∈ vol.hits, vanished (vol.later page) h = false → ∀ k top,
    ascend (vol.later page).entries.parent k h.idx = some top → (vol.later page).entries.parent top = none →
      k < maxPathHops

/-- The volume's index is, at the scan and at every page, one that the program can build, and no hit
    is its root. -/
structure Searched.Served [Externals] (vol : Searched) : Prop where
  scanned : ∃ rootFrn, Reachable rootFrn vol.scanned
  later : ∀ page, ∃ rootFrn, Reachable rootFrn (vol.later page)
  hits : ∀ h ∈ vol.hits, h.idx ≠ vol.scanned.root

section Memo

variable {run : Run}

def MemoHolds (vol : Searched) (page : Nat) (run : Run) : Prop :=
  ∀ folder built, run.memo folder = some built → ∃ earlier ≤ page, vol.HasRow earlier folder ∧
    (vol.later earlier).generation = run.memoGeneration ∧ built = shownPath (vol.later earlier) folder

theorem MemoHolds.refresh (holds : MemoHolds vol page run) :
    MemoHolds vol page (run.refresh (vol.later page)) ∧
      (run.refresh (vol.later page)).memoGeneration = (vol.later page).generation := by
  unfold Run.refresh
  split
  case isTrue => exact ⟨fun folder built found => (nomatch found), rfl⟩
  case isFalse valid =>
    push Not at valid
    exact ⟨holds, valid.1⟩

theorem MemoHolds.rowPath (holds : MemoHolds vol page run) (tells : vol.GenerationTells)
    (row : vol.HasRow page parent) (name mount : Bytes) :
    MemoHolds vol page (run.rowPath (vol.later page) parent name mount).1 ∧
      (run.rowPath (vol.later page) parent name mount).2 =
        (shownPath (vol.later page) parent).map fun parentPath => mount ++ joinPath parentPath name := by
  obtain ⟨fresh, current⟩ := holds.refresh
  simp only [Run.rowPath, Run.memoize]
  cases known : (run.refresh (vol.later page)).memo parent with
  | some built =>
    obtain ⟨earlier, le, before, generation, rfl⟩ := fresh parent built known
    have same := tells earlier page parent le (generation.trans current) before row
    simp only [same]
    exact ⟨fresh, by simp [joinPath]⟩
  | none =>
    refine ⟨fun folder built found => ?_, by simp [joinPath]⟩
    by_cases here : folder = parent
    · subst here
      simp only [update_self, Option.some.injEq] at found
      exact ⟨page, le_rfl, row, current.symm, found.symm⟩
    · simp only [update_of_ne here] at found
      exact fresh folder built found

theorem refs_rowPath (run : Run) (index : VolumeIndex) (parent : EntryIdx) (name mount : Bytes) :
    (run.rowPath index parent name mount).1.refs = run.refs := by
  simp only [Run.rowPath, Run.memoize, Run.refresh]
  split <;> split <;> rfl

end Memo

section Lanes

variable {lanes : List Lane}

/-- A lane is still that of its volume and run, with a memo that holds. -/
structure Lane.Honest (lane origin : Lane) (page : Nat) : Prop where
  source : lane.vol = origin.vol
  hits : lane.run.refs = origin.run.refs
  memo : MemoHolds origin.vol page lane.run

def AllHonest (origins : List Lane) (page : Nat) (lanes : List Lane) : Prop :=
  ∀ (r : Nat) (lane : Lane), lanes[r]? = some lane → ∃ origin, origins[r]? = some origin ∧ lane.Honest origin page

def Lane.HeadThere (page : Nat) (lane : Lane) : Prop :=
  ∀ h, lane.run.head = some h → vanished (lane.guard page) h = false

theorem Lane.Honest.stepPast (honest : lane.Honest origin page) :
    (lane.stepPast page).Honest origin page ∧ (lane.stepPast page).HeadThere page := by
  obtain ⟨refs, pos, memo, generation⟩ : (Run.takeHead^[lane.vanishedHeads page] lane.run).refs = lane.run.refs ∧
      (Run.takeHead^[lane.vanishedHeads page] lane.run).pos = lane.run.pos + lane.vanishedHeads page ∧
      (Run.takeHead^[lane.vanishedHeads page] lane.run).memo = lane.run.memo ∧
      (Run.takeHead^[lane.vanishedHeads page] lane.run).memoGeneration = lane.run.memoGeneration := by
    generalize lane.vanishedHeads page = n
    induction n with
    | zero => exact ⟨rfl, rfl, rfl, rfl⟩
    | succ n ih =>
      rw [iterate_succ_apply']
      exact ⟨ih.1, by show _ + 1 = _; rw [ih.2.1, Nat.add_assoc], ih.2.2⟩
  refine ⟨⟨honest.source, refs.trans honest.hits, ?_⟩, fun h head => ?_⟩
  · intro folder built found
    simp only [Lane.stepPast, memo] at found
    obtain ⟨earlier, le, row, same, eq⟩ := honest.memo folder built found
    exact ⟨earlier, le, row, same.trans generation.symm, eq⟩
  · simp only [Run.head, Lane.stepPast, refs, pos] at head
    exact (vanished_steppedTo head : vanished (lane.guard page) h = false)

variable [Externals]

theorem fields_ensureHeadKey (lane : Lane) (page : Nat) :
    (lane.ensureHeadKey page).vol = lane.vol ∧ (lane.ensureHeadKey page).run.refs = lane.run.refs ∧
      (lane.ensureHeadKey page).run.pos = lane.run.pos ∧ (lane.ensureHeadKey page).run.memo = lane.run.memo ∧
      (lane.ensureHeadKey page).run.memoGeneration = lane.run.memoGeneration := by
  unfold Lane.ensureHeadKey Run.ensureHeadKey
  split <;> exact ⟨rfl, rfl, rfl, rfl, rfl⟩

theorem nextHead_lanes (holds : Nat → Lane → Prop) (sort : SortSpec) (turn : Option (List Nat))
    (stepped : ∀ r lane, s.lanes[r]? = some lane → holds r (lane.stepPast page))
    (keyed : ∀ r lane, holds r lane → holds r (lane.ensureHeadKey page)) {r : Nat}
    (at_ : (nextHead sort turn page s).1.lanes[r]? = some lane) : holds r lane := by
  have start : ∀ r lane, (s.stepPast page).lanes[r]? = some lane → holds r lane := by
    intro r lane at_
    obtain ⟨old, oldAt, rfl⟩ := map_eq_some_iff.mp (getElem?_map.symm.trans at_)
    exact stepped r old oldAt
  have modified : ∀ (lanes : List Lane) (b : Nat), (∀ r lane, lanes[r]? = some lane → holds r lane) →
      ∀ r lane, (lanes.modify b (·.ensureHeadKey page))[r]? = some lane → holds r lane := by
    intro lanes b all r lane at_
    rw [getElem?_modify] at at_
    obtain ⟨old, oldAt, rfl⟩ := map_eq_some_iff.mp at_
    split
    · exact keyed r old (all r old oldAt)
    · exact all r old oldAt
  have picked : ∀ (state : List Lane × Option Nat) (k : Nat), (∀ r lane, state.1[r]? = some lane → holds r lane) →
      ∀ r lane, (pickBest sort page state k).1[r]? = some lane → holds r lane := by
    intro state k all
    have built : ∀ b r lane, (if sort.key = .path then
        (state.1.modify k (·.ensureHeadKey page)).modify b (·.ensureHeadKey page) else state.1)[r]? = some lane →
        holds r lane := by
      intro b
      split
      · exact modified _ b (modified _ k all)
      · exact all
    unfold pickBest
    split
    · exact all
    · split
      · exact all
      · simp only
        split
        · split <;> exact built _
        · exact built _
  unfold nextHead at at_
  cases turn with
  | some turn => exact start r lane at_
  | none =>
    have folded : ∀ (ks : List Nat) (state : List Lane × Option Nat), (∀ r lane, state.1[r]? = some lane → holds r lane) →
        ∀ r lane, (ks.foldl (pickBest sort page) state).1[r]? = some lane → holds r lane := by
      intro ks
      induction ks with
      | nil => exact fun _ all => all
      | cons k rest ih => exact fun state all => ih _ (picked state k all)
    exact folded _ _ start r lane at_

theorem AllHonest.nextHead (honest : AllHonest origins page s.lanes) (sort : SortSpec)
    (turn : Option (List Nat)) :
    AllHonest origins page (nextHead sort turn page s).1.lanes ∧
      ∀ (r : Nat) (lane : Lane), (nextHead sort turn page s).1.lanes[r]? = some lane → lane.HeadThere page := by
  have both : ∀ (r : Nat) (lane : Lane), (Daemon.nextHead sort turn page s).1.lanes[r]? = some lane →
      (∃ origin, origins[r]? = some origin ∧ lane.Honest origin page) ∧ lane.HeadThere page := by
    intro r lane at_
    apply nextHead_lanes (fun r lane => (∃ origin, origins[r]? = some origin ∧ lane.Honest origin page) ∧
      lane.HeadThere page) sort turn _ _ at_
    · intro r lane laneAt
      obtain ⟨origin, originAt, here⟩ := honest r lane laneAt
      exact ⟨⟨origin, originAt, here.stepPast.1⟩, here.stepPast.2⟩
    · rintro r lane ⟨⟨origin, originAt, here⟩, there⟩
      obtain ⟨source, refs, pos, memo, generation⟩ := fields_ensureHeadKey lane page
      refine ⟨⟨origin, originAt, source.trans here.source, refs.trans here.hits, ?_⟩, ?_⟩
      · intro folder built found
        rw [memo] at found
        rw [generation]
        exact here.memo folder built found
      · intro h head
        rw [Run.head, refs, pos] at head
        rw [Lane.guard, source]
        exact there h head
  exact ⟨fun r lane at_ => (both r lane at_).1, fun r lane at_ => (both r lane at_).2⟩

end Lanes

section Rows

variable [Externals] {q : QueryRequest} {vols : List Searched} {h : HitRef} {ri : Nat}

def RowCurrent (origins : List Lane) (page : Nat) (row : Sent) : Prop :=
  ∃ origin h path, origins[row.run]? = some origin ∧ origin.run.refs[row.pos]? = some h ∧
    vanished (origin.vol.later page) h = false ∧ (origin.vol.later page).pathOf h.idx [] = (.ok, path) ∧
    row.path = origin.vol.mountPrefix ++ path

/-- The lanes as they are opened, over volumes whose generations tell. -/
structure Opened (origins : List Lane) : Prop where
  served : ∀ origin ∈ origins, origin.vol.Served
  shallow : ∀ origin ∈ origins, origin.vol.Shallow
  tells : ∀ origin ∈ origins, origin.vol.GenerationTells
  hits : ∀ origin ∈ origins, ∀ h ∈ origin.run.refs, h ∈ origin.vol.hits

theorem Searched.Served.path (served : vol.Served) (shallow : vol.Shallow)
    (hit : h ∈ vol.hits) (there : vanished (vol.later page) h = false)
    (at_ : (vol.later page).entries.parent h.idx = some parent) {parentPath : Bytes}
    (shown : shownPath (vol.later page) parent = some parentPath) :
    (vol.later page).pathOf h.idx [] = (.ok, joinPath parentPath ((vol.later page).rawName h.idx)) := by
  obtain ⟨rootFrn, reachable⟩ := served.later page
  obtain ⟨scanRoot, scanned⟩ := served.scanned
  have notRoot : h.idx ≠ (vol.later page).root := by
    rw [reachable.root_eq, ← scanned.root_eq]
    exact served.hits h hit
  have live : (vol.later page).Live h.idx := by
    by_contra dead
    have stone : (vol.later page).entries.isTombstone h.idx = true := by
      simpa [VolumeIndex.Live, EntryTable.Live] using dead
    simp [vanished, entryIfFrn, stone] at there
  simp only [shownPath] at shown
  split at shown
  case isFalse => cases shown
  case isTrue ok =>
    obtain rfl := some.inj shown
    exact pathOf_child live at_ notRoot (shallow page h hit there) ok

theorem Lane.Honest.buildRow (here : lane.Honest origin page) (opened : Opened origins)
    (originAt : origins[ri]? = some origin) (refAt : origin.run.refs[lane.run.pos - 1]? = some h)
    (present : vanished (origin.vol.later page) h = false) (q : QueryRequest) :
    (buildRow q page ri lane h).1.Honest origin page ∧
      ∀ row, (buildRow q page ri lane h).2 = some row → RowCurrent origins page row := by
  have mem := mem_of_getElem? originAt
  have hit : h ∈ origin.vol.hits := opened.hits origin mem h (mem_of_getElem? refAt)
  simp only [Daemon.buildRow, Lane.guard, here.source]
  cases at_ : (origin.vol.later page).entries.parent h.idx with
  | none => exact ⟨here, fun row found => absurd found (by simp)⟩
  | some parent =>
    obtain ⟨memo, shown⟩ := here.memo.rowPath (opened.tells origin mem) ⟨h, hit, present, at_⟩
      ((origin.vol.later page).rawName h.idx) origin.vol.mountPrefix
    have refs := (refs_rowPath lane.run (origin.vol.later page) parent ((origin.vol.later page).rawName h.idx)
      origin.vol.mountPrefix).trans here.hits
    refine ⟨⟨rfl, refs, memo⟩, fun row found => ?_⟩
    simp only [shown] at found
    obtain ⟨path, built, rfl⟩ := map_eq_some_iff.mp found
    obtain ⟨parentPath, folder, rfl⟩ := map_eq_some_iff.mp built
    refine ⟨origin, h, _, originAt, refAt, present, ?_, rfl⟩
    exact (opened.served origin mem).path (opened.shallow origin mem) hit present at_ folder

omit [Externals] in
theorem AllHonest.set {lanes : List Lane} (honest : AllHonest origins page lanes)
    (originAt : origins[ri]? = some origin) (here : lane.Honest origin page) :
    AllHonest origins page (lanes.set ri lane) := by
  intro r other at_
  rw [getElem?_set] at at_
  split at at_
  case isTrue same =>
    subst same
    split at at_
    case isTrue => exact some.inj at_ ▸ ⟨origin, originAt, here⟩
    case isFalse => cases at_
  case isFalse => exact honest r other at_

theorem AllHonest.takeRow (honest : AllHonest origins page s.lanes) (opened : Opened origins)
    (there : ∀ (r : Nat) (lane : Lane), s.lanes[r]? = some lane → lane.HeadThere page) (plan : Plan) (ri : Nat) :
    AllHonest origins page (takeRow plan page s ri).1.lanes ∧
      ∀ row, (takeRow plan page s ri).2 = some row → RowCurrent origins page row := by
  unfold Daemon.takeRow
  split
  case h_1 => exact ⟨honest, fun row found => absurd found (by simp)⟩
  case h_2 lane laneAt =>
    split
    case h_1 => exact ⟨honest, fun row found => absurd found (by simp)⟩
    case h_2 h head =>
      obtain ⟨origin, originAt, here⟩ := honest ri lane laneAt
      have taken : ({ lane with run := lane.run.takeHead } : Lane).Honest origin page := { here with }
      simp only
      split
      · exact ⟨honest.set originAt taken, fun row found => absurd found (by simp)⟩
      · have refAt : origin.run.refs[lane.run.pos]? = some h := here.hits ▸ head
        have present : vanished (origin.vol.later page) h = false := by
          rw [← here.source]
          exact there ri lane laneAt h head
        obtain ⟨built, current⟩ := taken.buildRow opened originAt refAt present plan.request
        exact ⟨honest.set originAt built, current⟩

theorem AllHonest.fillPage (honest : AllHonest origins page s.lanes) (opened : Opened origins) (plan : Plan)
    (left : Nat) (out : Bytes) : AllHonest origins page (fillPage plan page left s out).heads.lanes ∧
      ∀ row ∈ (fillPage plan page left s out).rows, RowCurrent origins page row := by
  induction left generalizing s out with
  | zero => exact ⟨honest, fun row mem => absurd mem (by simp [Daemon.fillPage])⟩
  | succ left ih =>
    unfold Daemon.fillPage
    split
    case isFalse => exact ⟨honest, fun row mem => absurd mem (by simp)⟩
    case isTrue =>
      obtain ⟨honest', there⟩ := honest.nextHead plan.request.sort plan.turn
      cases chosen : Daemon.nextHead plan.request.sort plan.turn page s with
      | mk s' best =>
        rw [chosen] at honest' there
        cases best with
        | none => exact ⟨honest', fun row mem => absurd mem (by simp)⟩
        | some ri =>
          obtain ⟨honest'', current⟩ := honest'.takeRow opened there plan ri
          cases taken : Daemon.takeRow plan page s' ri with
          | mk s'' sent =>
            rw [taken] at honest'' current
            simp only [taken]
            cases sent with
            | none => exact ih honest'' out
            | some row =>
              obtain ⟨last, rows⟩ := ih honest'' (pushSent out row)
              refine ⟨last, fun other mem => ?_⟩
              rcases mem_cons.mp mem with rfl | later
              · exact current other rfl
              · exact rows other later

omit [Externals] in
theorem MemoHolds.nextPage {run : Run} (holds : MemoHolds vol page run) : MemoHolds vol (page + 1) run := by
  intro folder built found
  obtain ⟨earlier, le, rest⟩ := holds folder built found
  exact ⟨earlier, by omega, rest⟩

theorem AllHonest.streamPages (honest : AllHonest origins page s.lanes) (opened : Opened origins)
    (plan : Plan) (summary : Proto.Summary) (fuel : Nat) {i : Nat} {answer : Page}
    (at_ : (streamPages plan summary fuel page s)[i]? = some answer) :
    ∀ row ∈ answer.rows, RowCurrent origins (page + i) row := by
  induction fuel generalizing s page i with
  | zero => cases at_
  | succ fuel ih =>
    obtain ⟨honest', current⟩ := honest.fillPage opened plan Proto.pageRows (frameStart summary)
    unfold Daemon.streamPages at at_
    cases i with
    | zero =>
      simp only [getElem?_cons_zero, Option.some.injEq] at at_
      subst at_
      exact current
    | succ i =>
      simp only [getElem?_cons_succ] at at_
      split at at_
      case isFalse => cases at_
      case isTrue =>
        have next : AllHonest origins (page + 1)
            (Daemon.fillPage plan page Proto.pageRows s (frameStart summary)).heads.lanes := by
          intro r lane laneAt
          obtain ⟨origin, originAt, here⟩ := honest' r lane laneAt
          exact ⟨origin, originAt, here.source, here.hits, here.memo.nextPage⟩
        have later := ih next at_
        rwa [Nat.add_right_comm] at later

end Rows

def quietDrive : Searched where
  mountPrefix := [0x43, 0x3A, 0x5C]
  scanned := folderIndex
  hits := [folderHit]
  later := fun _ => folderIndex

end Goz.Daemon
