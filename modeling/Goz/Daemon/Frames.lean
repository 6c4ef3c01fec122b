import Goz.Daemon.Rescan

namespace Goz.Daemon

open Function VolumeIndex List

variable {lane : Lane} {page total : Nat} {s : Heads} {plan : Plan} {out : Bytes} {vols : List Searched}
variable {fuel : Nat} {answer : Page} {α : Type*}

section Places

variable [Externals] {state : List Lane × Option Nat} {seen : List Nat}

def Lane.place (lane : Lane) : Lane := { lane with run := { lane.run with headKey := none } }

theorem place_ensureHeadKey (lane : Lane) : (lane.ensureHeadKey page).place = lane.place := by
  unfold Lane.ensureHeadKey Run.ensureHeadKey
  split <;> rfl

omit [Externals] in
theorem map_modify_of_eq {β : Type*} {f : α → α} {g : α → β} (same : ∀ a, g (f a) = g a) (items : List α) (i : Nat) :
    (items.modify i f).map g = items.map g := by
  apply ext_getElem?
  intro r
  rw [getElem?_map, getElem?_map, getElem?_modify]
  split
  · cases items[r]? <;> simp [same]
  · simp

theorem places_pickBest (sort : SortSpec) (page : Nat) (state : List Lane × Option Nat) (k : Nat) :
    (pickBest sort page state k).1.map Lane.place = state.1.map Lane.place := by
  have keyed : ∀ b, (if sort.key = .path then
      (state.1.modify k (·.ensureHeadKey page)).modify b (·.ensureHeadKey page) else state.1).map Lane.place =
        state.1.map Lane.place := by
    intro b
    split
    · rw [map_modify_of_eq place_ensureHeadKey, map_modify_of_eq place_ensureHeadKey]
    · rfl
  unfold pickBest
  split
  · rfl
  · split
    · rfl
    · dsimp only
      split
      · split <;> exact keyed _
      · exact keyed _

def HasHead (lanes : List Lane) (r : Nat) : Prop := (lanes[r]?.bind (·.run.head)).isSome

omit [Externals] in
theorem hasHead_congr {lanes lanes' : List Lane} (same : lanes.map Lane.place = lanes'.map Lane.place) (r : Nat) :
    HasHead lanes r ↔ HasHead lanes' r := by
  have seen : ∀ lanes : List Lane, lanes[r]?.bind (·.run.head) = (lanes.map Lane.place)[r]?.bind (·.run.head) := by
    intro lanes
    rw [getElem?_map]
    cases lanes[r]? <;> rfl
  rw [HasHead, HasHead, seen lanes, seen lanes', same]

theorem pickBest_choice (sort : SortSpec) (page : Nat) (state : List Lane × Option Nat) (k : Nat) :
    (¬ HasHead state.1 k ∧ (pickBest sort page state k).2 = state.2) ∨
      HasHead state.1 k ∧ ((pickBest sort page state k).2 = some k ∨
        (pickBest sort page state k).2 = state.2 ∧ state.2 ≠ none) := by
  unfold pickBest HasHead
  split
  · rename_i headless
    exact .inl ⟨by simpa using headless, rfl⟩
  · rename_i head
    right
    refine ⟨by simpa [Option.isSome_iff_ne_none] using head, ?_⟩
    split
    · exact .inl rfl
    · rename_i b chosen
      dsimp only
      split
      · split
        · exact .inl rfl
        · exact .inr ⟨chosen.symm, by simp [chosen]⟩
      · exact .inr ⟨chosen.symm, by simp [chosen]⟩

def Chosen (state : List Lane × Option Nat) (seen : List Nat) : Prop :=
  (∀ b, state.2 = some b → HasHead state.1 b) ∧ (state.2 = none → ∀ r ∈ seen, ¬ HasHead state.1 r)

theorem Chosen.pickBest (chosen : Chosen state seen)
    (sort : SortSpec) (k : Nat) : Chosen (pickBest sort page state k) (seen ++ [k]) := by
  have heads := hasHead_congr (places_pickBest sort page state k)
  rcases pickBest_choice sort page state k with ⟨headless, same⟩ | ⟨head, ⟨new⟩ | ⟨same, some_⟩⟩
  · constructor
    · intro b here
      exact (heads b).mpr (chosen.1 b (same ▸ here))
    · intro none_ r mem
      rw [heads]
      rcases mem_append.mp mem with old | new
      · exact chosen.2 (same ▸ none_) r old
      · rwa [mem_singleton.mp new]
  · constructor
    · intro b here
      obtain rfl := Option.some.inj (new.symm.trans here)
      exact (heads k).mpr head
    · intro none_
      simp [new] at none_
  · constructor
    · intro b here
      exact (heads b).mpr (chosen.1 b (same ▸ here))
    · intro none_
      exact absurd (same ▸ none_) some_

theorem foldl_pickBest (sort : SortSpec) (page : Nat) (ks : List Nat)
    (chosen : Chosen state seen) :
    (ks.foldl (pickBest sort page) state).1.map Lane.place = state.1.map Lane.place ∧
      Chosen (ks.foldl (pickBest sort page) state) (seen ++ ks) := by
  induction ks generalizing state seen with
  | nil => exact ⟨rfl, by simpa using chosen⟩
  | cons k ks ih =>
    obtain ⟨places, choice⟩ := ih (chosen.pickBest sort k)
    refine ⟨places.trans (places_pickBest sort page state k), ?_⟩
    simpa using choice

def CoversAll (turn : Option (List Nat)) (lanes : List Lane) : Prop :=
  ∀ order, turn = some order → ∀ r < lanes.length, r ∈ order

theorem nextHead_spec (sort : SortSpec) (turn : Option (List Nat)) (page : Nat) (s : Heads) :
    (nextHead sort turn page s).1.lanes.map Lane.place = (s.stepPast page).lanes.map Lane.place ∧
      (nextHead sort turn page s).1.consumed = (s.stepPast page).consumed ∧
      (∀ ri, (nextHead sort turn page s).2 = some ri → HasHead (nextHead sort turn page s).1.lanes ri) ∧
      ((nextHead sort turn page s).2 = none → CoversAll turn s.lanes →
        ∀ r < s.lanes.length, ¬ HasHead (nextHead sort turn page s).1.lanes r) := by
  unfold nextHead
  cases turn with
  | some order =>
    refine ⟨rfl, rfl, ?_, ?_⟩
    · intro ri found
      have head := find?_some found
      exact head
    · intro none_ covers r inside
      have headless := find?_eq_none.mp none_ r (covers order rfl r inside)
      exact headless
  | none =>
    have start : Chosen ((s.stepPast page).lanes, none) [] := ⟨by simp, by simp⟩
    obtain ⟨places, choice⟩ := foldl_pickBest sort page (range (s.stepPast page).lanes.length) start
    refine ⟨places, rfl, choice.1, ?_⟩
    intro none_ _ r inside
    exact choice.2 none_ r (by simpa [Heads.stepPast] using inside)

end Places

section Counting

variable [Externals] {turn : Option (List Nat)} {s' : Heads} {ri : Nat}

/-- The rows consumed are those the runs have moved past, and no run has moved past its end. -/
structure Counted (total : Nat) (turn : Option (List Nat)) (s : Heads) : Prop where
  count : s.consumed = (s.lanes.map fun lane => lane.run.pos).sum
  bound : ∀ lane ∈ s.lanes, lane.run.pos ≤ lane.run.refs.length
  total : (s.lanes.map fun lane => lane.run.refs.length).sum = total
  covers : CoversAll turn s.lanes

omit [Externals] in
theorem Counted.of_places (counted : Counted total turn s)
    (same : s'.lanes.map Lane.place = s.lanes.map Lane.place) (consumed : s'.consumed = s.consumed) :
    Counted total turn s' := by
  have through : ∀ f : Lane → Nat, (∀ lane, f lane = f lane.place) → s'.lanes.map f = s.lanes.map f := by
    intro f blind
    have seen : ∀ lanes : List Lane, lanes.map f = (lanes.map Lane.place).map f := by
      intro lanes
      rw [map_map]
      exact map_congr_left fun lane _ => blind lane
    rw [seen, seen s.lanes, same]
  constructor
  · rw [consumed, counted.count, through _ fun _ => rfl]
  · intro lane mem
    have placed : lane.place ∈ s.lanes.map Lane.place := same ▸ mem_map_of_mem mem
    obtain ⟨old, oldMember, eq⟩ := mem_map.mp placed
    have bound := counted.bound old oldMember
    have pos : lane.run.pos = old.run.pos := congrArg (fun l => l.run.pos) eq.symm
    have refs : lane.run.refs = old.run.refs := congrArg (fun l => l.run.refs) eq.symm
    rwa [pos, refs]
  · rw [← counted.total, through _ fun _ => rfl]
  · have length : s'.lanes.length = s.lanes.length := by simpa using congrArg List.length same
    intro order is r inside
    exact counted.covers order is r (length ▸ inside)

omit [Externals] in
theorem stepPast_place (lane : Lane) : (lane.stepPast page).run.pos = lane.run.pos + lane.vanishedHeads page ∧
    (lane.stepPast page).run.refs = lane.run.refs := by
  obtain ⟨refs, pos, -⟩ := takeHead_iterate (lane.vanishedHeads page) lane.run
  exact ⟨pos, refs⟩

omit [Externals] in
theorem Counted.stepPast (counted : Counted total turn s) : Counted total turn (s.stepPast page) where
  count := by
    have places : ((s.stepPast page).lanes.map fun lane => lane.run.pos) =
        s.lanes.map fun lane => lane.run.pos + lane.vanishedHeads page := by
      rw [Heads.stepPast, map_map]
      exact map_congr_left fun lane _ => (stepPast_place lane).1
    rw [places, sum_map_add, ← counted.count]
    rfl
  bound := by
    intro lane mem
    obtain ⟨old, oldMember, rfl⟩ := mem_map.mp mem
    rw [(stepPast_place old).1, (stepPast_place old).2]
    exact vanishedHeads_le page (counted.bound old oldMember)
  total := by
    rw [← counted.total, Heads.stepPast, map_map]
    congr 1
    exact map_congr_left fun lane _ => congrArg List.length (stepPast_place lane).2
  covers := by
    intro order is r inside
    exact counted.covers order is r (by simpa [Heads.stepPast] using inside)

theorem Counted.nextHead (counted : Counted total turn s) (sort : SortSpec) :
    Counted total turn (nextHead sort turn page s).1 := by
  obtain ⟨places, consumed, -⟩ := nextHead_spec sort turn page s
  exact counted.stepPast.of_places places consumed

theorem consumed_nextHead (sort : SortSpec) (turn : Option (List Nat)) (page : Nat) (s : Heads) : s.consumed ≤ (nextHead sort turn page s).1.consumed := by
  rw [(nextHead_spec sort turn page s).2.1]
  exact Nat.le_add_right _ _

theorem Counted.exhausted (counted : Counted total turn s) (page : Nat) (sort : SortSpec)
    (none_ : (Daemon.nextHead sort turn page s).2 = none) : (Daemon.nextHead sort turn page s).1.consumed = total := by
  have after : Counted total turn (Daemon.nextHead sort turn page s).1 := counted.nextHead sort
  have headless := (nextHead_spec sort turn page s).2.2.2 none_ counted.covers
  have length : (Daemon.nextHead sort turn page s).1.lanes.length = s.lanes.length := by
    simpa [Heads.stepPast] using congrArg List.length (nextHead_spec sort turn page s).1
  rw [after.count, ← after.total]
  congr 1
  apply map_congr_left
  intro lane mem
  obtain ⟨r, inside, rfl⟩ := getElem_of_mem mem
  have ended := headless r (length ▸ inside)
  have past : (Daemon.nextHead sort turn page s).1.lanes[r].run.refs.length ≤
      (Daemon.nextHead sort turn page s).1.lanes[r].run.pos := by
    simpa [HasHead, inside, Run.head] using ended
  exact le_antisymm (after.bound _ mem) past

omit [Externals] in
theorem sum_map_set {items : List α} {i d : Nat} {old new : α} (at_ : items[i]? = some old) (f : α → Nat)
    (grows : f new = f old + d) : ((items.set i new).map f).sum = (items.map f).sum + d := by
  induction items generalizing i with
  | nil => simp at at_
  | cons item items ih =>
    cases i with
    | zero =>
      simp only [getElem?_cons_zero, Option.some.injEq] at at_
      subst at_
      simp only [set_cons_zero, map_cons, sum_cons, grows]
      omega
    | succ i =>
      simp only [getElem?_cons_succ] at at_
      simp only [set_cons_succ, map_cons, sum_cons, ih at_]
      omega

omit [Externals] in
theorem place_rowPath (run : Run) (index : VolumeIndex) (parent : EntryIdx) (name mount : Bytes) :
    (run.rowPath index parent name mount).1.refs = run.refs ∧ (run.rowPath index parent name mount).1.pos = run.pos := by
  simp only [Run.rowPath, Run.memoize, Run.refresh]
  split <;> split <;> exact ⟨rfl, rfl⟩

omit [Externals] in
theorem place_buildRow (q : QueryRequest) (page ri : Nat) (lane : Lane) (h : HitRef) :
    (buildRow q page ri lane h).1.vol = lane.vol ∧ (buildRow q page ri lane h).1.run.refs = lane.run.refs ∧
      (buildRow q page ri lane h).1.run.pos = lane.run.pos := by
  unfold buildRow
  dsimp only
  split
  · exact ⟨rfl, rfl, rfl⟩
  · rename_i parent _
    exact ⟨rfl, place_rowPath lane.run (lane.guard page) parent ((lane.guard page).rawName h.idx) lane.vol.mountPrefix⟩

omit [Externals] in
theorem takeRow_spec (plan : Plan) (page : Nat) {s : Heads} (laneAt : s.lanes[ri]? = some lane)
    {h : HitRef} (head : lane.run.head = some h) :
    (takeRow plan page s ri).1.consumed = s.consumed + 1 ∧
      (∃ moved : Lane, (takeRow plan page s ri).1.lanes = s.lanes.set ri moved ∧ moved.run.refs = lane.run.refs ∧
        moved.run.pos = lane.run.pos + 1) ∧
      ((takeRow plan page s ri).2.isSome → plan.start ≤ s.consumed) := by
  simp only [takeRow, laneAt, head]
  split
  · exact ⟨rfl, ⟨_, rfl, rfl, rfl⟩, by simp⟩
  · rename_i beyond
    obtain ⟨-, refs, pos⟩ := place_buildRow plan.request page ri { lane with run := lane.run.takeHead } h
    exact ⟨rfl, ⟨_, rfl, refs, pos⟩, fun _ => by omega⟩

variable (counted : Counted total turn s)
include counted

omit [Externals] in
theorem Counted.takeRow (plan : Plan) (page : Nat) (has : HasHead s.lanes ri) :
    Counted total turn (takeRow plan page s ri).1 ∧ (takeRow plan page s ri).1.consumed = s.consumed + 1 ∧
      ((takeRow plan page s ri).2.isSome → plan.start ≤ s.consumed) := by
  obtain ⟨h, found⟩ := Option.isSome_iff_exists.mp has
  obtain ⟨lane, laneAt, head⟩ := Option.bind_eq_some_iff.mp found
  obtain ⟨consumed, ⟨moved, lanes, refs, pos⟩, beyond⟩ := takeRow_spec plan page laneAt head
  have inside : lane.run.pos < lane.run.refs.length := (List.getElem?_eq_some_iff.mp head).1
  refine ⟨⟨?_, ?_, ?_, ?_⟩, consumed, beyond⟩
  · rw [consumed, lanes, sum_map_set laneAt (fun lane => lane.run.pos) pos, counted.count]
  · intro other mem
    rw [lanes] at mem
    rcases mem_or_eq_of_mem_set mem with old | rfl
    · exact counted.bound other old
    · rw [refs, pos]
      exact inside
  · rw [lanes, sum_map_set laneAt (fun lane => lane.run.refs.length) (d := 0) (by rw [refs]; rfl)]
    exact counted.total
  · intro order is r bound
    rw [lanes, length_set] at bound
    exact counted.covers order is r bound

theorem Counted.chosen {sort : SortSpec} {best : Option Nat}
    (chosen : Daemon.nextHead sort turn page s = (s', best)) :
    Counted total turn s' ∧ s.consumed ≤ s'.consumed ∧ (best = none → s'.consumed = total) ∧
      ∀ ri, best = some ri → HasHead s'.lanes ri := by
  have next : Counted total turn (Daemon.nextHead sort turn page s).1 := counted.nextHead sort
  have le := consumed_nextHead sort turn page s
  have done := counted.exhausted page sort
  have has := (nextHead_spec sort turn page s).2.2.1
  rw [chosen] at next le done has
  exact ⟨next, le, done, has⟩

omit [Externals] in
theorem Counted.taken {plan : Plan} (has : HasHead s.lanes ri)
    {sent : Option Sent} (taken : Daemon.takeRow plan page s ri = (s', sent)) :
    Counted total turn s' ∧ s'.consumed = s.consumed + 1 ∧ (sent.isSome → plan.start ≤ s.consumed) := by
  have after := counted.takeRow plan page has
  rwa [taken] at after

end Counting

section Filling

variable [Externals] {left : Nat} {limit sent : Nat}

/-- What filling a page with at most `left` rows does: it takes a row or ends, it sends at most what it takes beyond the
offset, and it sends nothing beyond the window. -/
structure Fills (plan : Plan) (total left : Nat) (s : Heads) (out : Bytes) (filled : Filled) : Prop where
  counted : Counted total plan.turn filled.heads
  few : filled.rows.length ≤ left
  moves : s.consumed ≤ filled.heads.consumed
  progress : 0 < left → s.consumed < plan.stop → out.length < pageByteBudget →
    s.consumed < filled.heads.consumed ∨ filled.heads.consumed = total
  beyond : filled.rows.length ≤ filled.heads.consumed - max plan.start s.consumed

variable (counted : Counted total plan.turn s)
include counted

theorem fillPage_fills (page left : Nat) (out : Bytes) :
    Fills plan total left s out (fillPage plan page left s out) := by
  induction left generalizing s out with
  | zero => exact ⟨counted, le_rfl, le_rfl, by simp, by simp [fillPage]⟩
  | succ left ih =>
    rcases fillPage_succ plan page left s out with ⟨idle, same⟩ | ⟨-, s', best, chosen, turn⟩
    · rw [same]
      exact ⟨counted, Nat.zero_le _, le_rfl, fun _ small short => absurd ⟨small, short⟩ idle, Nat.zero_le _⟩
    · obtain ⟨next, le, done, has⟩ := counted.chosen chosen
      rcases turn with ⟨none_, same⟩ | ⟨ri, s'', sent, some_, taken, turn⟩
      · rw [same]
        exact ⟨next, Nat.zero_le _, le, fun _ _ _ => .inr (done none_), Nat.zero_le _⟩
      · obtain ⟨after, consumed, beyond⟩ := next.taken (has ri some_) taken
        rcases turn with ⟨-, same⟩ | ⟨row, built, same⟩
        · rw [same]
          have rest := ih after out
          have moved := rest.moves
          have sends := rest.beyond
          exact ⟨rest.counted, rest.few.trans (Nat.le_succ _), by omega, fun _ _ _ => .inl (by omega), by omega⟩
        · rw [same]
          have rest := ih after (pushSent out row)
          have moved := rest.moves
          have sends := rest.beyond
          have start := beyond (by rw [built]; rfl)
          have further : s.consumed < (fillPage plan page left s'' (pushSent out row)).heads.consumed := by omega
          refine ⟨rest.counted, Nat.succ_le_succ rest.few, further.le, fun _ _ _ => .inl further, ?_⟩
          simp only [length_cons]
          omega

theorem streamPages_more (summary : Proto.Summary) (within : plan.stop ≤ total) (page : Nat) (enough : plan.stop - s.consumed < fuel) :
    ∃ n, (streamPages plan summary fuel page s).map (·.more) = replicate n true ++ [false] := by
  induction fuel generalizing s page with
  | zero => omega
  | succ fuel ih =>
    have fills := fillPage_fills counted page Proto.pageRows (frameStart summary)
    unfold streamPages
    dsimp only
    by_cases more : (fillPage plan page Proto.pageRows s (frameStart summary)).heads.consumed < plan.stop
    · have progress := fills.progress (by decide) (fills.moves.trans_lt more) (frameStart_small summary)
      obtain ⟨n, rest⟩ := ih fills.counted (page + 1) (by omega)
      refine ⟨n + 1, ?_⟩
      simp only [more, decide_true, if_true, map_cons, rest, replicate_succ, cons_append]
    · exact ⟨0, by simp [more]⟩

theorem streamPages_rows (summary : Proto.Summary)
    (mem : answer ∈ streamPages plan summary fuel page s) : answer.rows.length ≤ Proto.pageRows := by
  induction fuel generalizing s page with
  | zero => cases mem
  | succ fuel ih =>
    have fills := fillPage_fills counted page Proto.pageRows (frameStart summary)
    unfold streamPages at mem
    rcases mem_cons.mp mem with rfl | later
    · exact fills.few
    · split at later
      · exact ih fills.counted later
      · cases later

theorem fillPage_limit (window : plan.stop ≤ plan.start + limit)
    (before : sent ≤ s.consumed - plan.start) (room : sent ≤ limit) (positive : 1 ≤ limit) (page left : Nat) (out : Bytes) :
    sent + (fillPage plan page left s out).rows.length ≤ limit := by
  induction left generalizing s out sent with
  | zero => exact room
  | succ left ih =>
    rcases fillPage_succ plan page left s out with ⟨-, same⟩ | ⟨going, s', best, chosen, turn⟩
    · rw [same]
      exact room
    · obtain ⟨next, le, -, has⟩ := counted.chosen chosen
      rcases turn with ⟨-, same⟩ | ⟨ri, s'', row, some_, taken, turn⟩
      · rw [same]
        exact room
      · obtain ⟨after, consumed, beyond⟩ := next.taken (has ri some_) taken
        rcases turn with ⟨-, same⟩ | ⟨row, built, same⟩
        · rw [same]
          exact ih after (by omega) room out
        · rw [same]
          have start := beyond (by rw [built]; rfl)
          have rest : sent + 1 + (fillPage plan page left s'' (pushSent out row)).rows.length ≤ limit :=
            ih after (by omega) (by omega) (pushSent out row)
          simp only [length_cons]
          omega

theorem streamPages_limit (summary : Proto.Summary)
    (window : plan.stop ≤ plan.start + limit) (before : sent ≤ s.consumed - plan.start) (room : sent ≤ limit)
    (positive : 1 ≤ limit) (fuel page : Nat) :
    sent + ((streamPages plan summary fuel page s).map (·.rows.length)).sum ≤ limit := by
  induction fuel generalizing s page sent with
  | zero => exact room
  | succ fuel ih =>
    have fills := fillPage_fills counted page Proto.pageRows (frameStart summary)
    have within := fillPage_limit counted window before room positive page Proto.pageRows (frameStart summary)
    have moved := fills.moves
    have beyond := fills.beyond
    unfold streamPages
    dsimp only
    split
    · have rest := ih fills.counted (by omega) within (page + 1)
      simp only [map_cons, sum_cons]
      omega
    · simpa using within

end Filling

section Sizes

def nameMax : Nat := 765

variable {ix : VolumeIndex} {e : EntryIdx}

def NamesFit (ix : VolumeIndex) : Prop := ∀ e, ix.Live e → (ix.rawName e).length ≤ nameMax

theorem length_pushComponent (out : Bytes) (fit : (ix.rawName e).length ≤ nameMax) :
    (ix.pushComponent out e).length ≤ out.length + (nameMax + 1) := by
  unfold pushComponent
  split
  · omega
  · split
    · rw [length_append]
      omega
    · rw [length_append, length_append, length_singleton]
      omega

theorem length_foldl_pushComponent (chain : List EntryIdx) (out : Bytes)
    (fit : ∀ e ∈ chain, (ix.rawName e).length ≤ nameMax) :
    (chain.foldl ix.pushComponent out).length ≤ out.length + chain.length * (nameMax + 1) := by
  induction chain generalizing out with
  | nil => simp
  | cons e chain ih =>
    have first := length_pushComponent out (fit e (by simp))
    have rest := ih (ix.pushComponent out e) fun x mem => fit x (by simp [mem])
    rw [foldl_cons, length_cons, Nat.succ_mul]
    omega

theorem length_pathChain (hops : Nat) (e : EntryIdx) : (ix.pathChain hops e).length ≤ hops := by
  induction hops generalizing e with
  | zero => exact le_rfl
  | succ hops ih =>
    rw [pathChain, length_cons]
    cases ix.entries.parent e with
    | none => exact Nat.succ_le_succ (Nat.zero_le _)
    | some p => exact Nat.succ_le_succ (ih p)

theorem pathChain_live [Externals] (ok : ix.Integrity) (hops : Nat) (live : ix.Live e) : ∀ x ∈ ix.pathChain hops e, ix.Live x := by
  induction hops generalizing e with
  | zero => exact fun x mem => absurd mem (by simp [pathChain])
  | succ hops ih =>
    intro x mem
    rw [pathChain] at mem
    rcases mem_cons.mp mem with rfl | above
    · exact live
    · cases at_ : ix.entries.parent e with
      | none => simp [at_] at above
      | some p =>
        rw [at_] at above
        exact ih (ok.parent_live e p live at_) x above

theorem length_pathOf [Externals] (ok : ix.Integrity) (fit : NamesFit ix) (live : ix.Live e) :
    (ix.pathOf e []).2.length ≤ maxPathHops * (nameMax + 1) := by
  unfold pathOf
  dsimp only
  split
  · simp
  · split
    · simp
    · have all := length_foldl_pushComponent (ix.pathChain maxPathHops e).reverse [] fun x mem =>
        fit x (pathChain_live ok maxPathHops live x (mem_reverse.mp mem))
      have hops : (ix.pathChain maxPathHops e).length ≤ maxPathHops := length_pathChain maxPathHops e
      rw [length_reverse, length_nil, Nat.zero_add] at all
      exact all.trans (Nat.mul_le_mul_right _ hops)

variable [Externals]

structure Searched.Fits (vol : Searched) : Prop where
  later : ∀ page, ∃ rootFrn, Reachable rootFrn (vol.later page)
  names : ∀ page, NamesFit (vol.later page)
  mount : vol.mountPrefix.length < 2 ^ 20

def Lane.Fits (vols : List Searched) (lane : Lane) : Prop :=
  lane.vol ∈ vols ∧ ∀ folder path, lane.run.memo folder = some (some path) → path.length ≤ maxPathHops * (nameMax + 1)

theorem Searched.Fits.shownPath {vol : Searched} (fits : vol.Fits) {folder : EntryIdx} {path : Bytes}
    (live : (vol.later page).Live folder) (shown : shownPath (vol.later page) folder = some path) :
    path.length ≤ maxPathHops * (nameMax + 1) := by
  obtain ⟨rootFrn, reachable⟩ := fits.later page
  have bound := length_pathOf reachable.invariant.integrity (fits.names page) live
  simp only [Daemon.shownPath] at shown
  split at shown
  · obtain rfl := Option.some.inj shown
    exact bound
  · cases shown

theorem Lane.Fits.rowPath (fit : lane.Fits vols) (fits : lane.vol.Fits) {parent : EntryIdx}
    (live : (lane.vol.later page).Live parent) (name : Bytes) :
    let shown := lane.run.rowPath (lane.vol.later page) parent name lane.vol.mountPrefix
    ({ lane with run := shown.1 } : Lane).Fits vols ∧
      ∀ path, shown.2 = some path → path.length ≤ 2 ^ 20 + maxPathHops * (nameMax + 1) + 1 + name.length := by
  have short := fits.mount
  have fresh : ∀ folder path, (lane.run.refresh (lane.vol.later page)).memo folder = some (some path) →
      path.length ≤ maxPathHops * (nameMax + 1) := by
    intro folder path found
    unfold Run.refresh at found
    split at found
    · cases found
    · exact fit.2 folder path found
  have joined : ∀ path : Bytes, path.length ≤ maxPathHops * (nameMax + 1) →
      (lane.vol.mountPrefix ++ (if path.isEmpty then [] else path ++ [0x5C]) ++ name).length ≤
        2 ^ 20 + maxPathHops * (nameMax + 1) + 1 + name.length := by
    intro path bound
    split
    · simp only [length_append, length_nil]
      omega
    · simp only [length_append, length_singleton]
      omega
  simp only [Run.rowPath, Run.memoize]
  cases known : (lane.run.refresh (lane.vol.later page)).memo parent with
  | some built =>
    refine ⟨⟨fit.1, fresh⟩, fun path shown => ?_⟩
    obtain ⟨folderPath, found, rfl⟩ := Option.map_eq_some_iff.mp shown
    change built = some folderPath at found
    exact joined folderPath (fresh parent folderPath (found ▸ known))
  | none =>
    constructor
    · refine ⟨fit.1, fun folder path found => ?_⟩
      by_cases here : folder = parent
      · subst here
        simp only [update_self, Option.some.injEq] at found
        exact fits.shownPath live found
      · simp only [update_of_ne here] at found
        exact fresh folder path found
    · intro path shown
      obtain ⟨folderPath, found, rfl⟩ := Option.map_eq_some_iff.mp shown
      exact joined folderPath (fits.shownPath live found)

def pathMax : Nat := 2 ^ 20 + maxPathHops * (nameMax + 1) + 1 + nameMax

theorem Lane.Fits.takeRow (fits : ∀ vol ∈ vols, vol.Fits) (all : ∀ lane ∈ s.lanes, lane.Fits vols)
    (there : ∀ lane ∈ s.lanes, lane.HeadThere page) (plan : Plan) (ri : Nat) :
    (∀ lane ∈ (takeRow plan page s ri).1.lanes, lane.Fits vols) ∧
      ∀ row, (takeRow plan page s ri).2 = some row → row.path.length ≤ pathMax := by
  unfold Daemon.takeRow
  split
  · exact ⟨all, by simp⟩
  · rename_i lane laneAt
    have mem := mem_of_getElem? laneAt
    have here := all lane mem
    split
    · exact ⟨all, by simp⟩
    · rename_i h head
      have replaced : ∀ new : Lane, new.Fits vols → ∀ other ∈ s.lanes.set ri new, other.Fits vols := by
        intro new fit other at_
        rcases mem_or_eq_of_mem_set at_ with old | rfl
        · exact all other old
        · exact fit
      dsimp only
      split
      · exact ⟨replaced _ here, by simp⟩
      · simp only [Daemon.buildRow, Lane.guard]
        cases at_ : (lane.vol.later page).entries.parent h.idx with
        | none => exact ⟨replaced _ here, by simp⟩
        | some parent =>
          obtain ⟨rootFrn, reachable⟩ := (fits lane.vol here.1).later page
          have ok := reachable.invariant.integrity
          have live := ((vanished_eq_false ok).mp (there lane mem h head)).1
          have taken : ({ lane with run := lane.run.takeHead } : Lane).Fits vols := here
          obtain ⟨kept, short⟩ := taken.rowPath (fits lane.vol here.1) (ok.parent_live h.idx parent live at_)
            ((lane.vol.later page).rawName h.idx)
          refine ⟨replaced _ kept, fun row built => ?_⟩
          obtain ⟨path, shown, rfl⟩ := Option.map_eq_some_iff.mp built
          have name := (fits lane.vol here.1).names page h.idx live
          have bound := short path shown
          simp only [pathMax]
          omega

theorem Lane.Fits.nextHead (all : ∀ lane ∈ s.lanes, lane.Fits vols) (page : Nat) (sort : SortSpec) (turn : Option (List Nat)) :
    ∀ lane ∈ (nextHead sort turn page s).1.lanes, lane.Fits vols ∧ lane.HeadThere page := by
  intro lane mem
  obtain ⟨r, at_⟩ := getElem?_of_mem mem
  apply nextHead_lanes (fun _ lane => lane.Fits vols ∧ lane.HeadThere page) sort turn _ _ at_
  · intro r lane laneAt
    obtain ⟨refs, pos, memo, -⟩ := takeHead_iterate (lane.vanishedHeads page) lane.run
    have fit := all lane (mem_of_getElem? laneAt)
    refine ⟨⟨fit.1, ?_⟩, ?_⟩
    · intro folder path found
      rw [Lane.stepPast, memo] at found
      exact fit.2 folder path found
    · intro h head
      rw [Run.head, Lane.stepPast, refs, pos] at head
      have present : vanished (lane.guard page) h = false := vanished_steppedTo head
      exact present
  · rintro r lane ⟨fit, there⟩
    obtain ⟨source, refs, pos, memo, -⟩ := fields_ensureHeadKey lane page
    refine ⟨⟨source ▸ fit.1, ?_⟩, ?_⟩
    · rw [memo]
      exact fit.2
    · intro h head
      rw [Run.head, refs, pos] at head
      rw [Lane.guard, source]
      exact there h head

theorem fillPage_length (fits : ∀ vol ∈ vols, vol.Fits) (all : ∀ lane ∈ s.lanes, lane.Fits vols) (plan : Plan)
    (page left : Nat) (start : out.length ≤ pageByteBudget + pathMax + 21) :
    (∀ lane ∈ (fillPage plan page left s out).heads.lanes, lane.Fits vols) ∧
      (fillPage plan page left s out).out.length ≤ pageByteBudget + pathMax + 21 := by
  induction left generalizing s out with
  | zero => exact ⟨all, start⟩
  | succ left ih =>
    rcases fillPage_succ plan page left s out with ⟨-, same⟩ | ⟨going, s', best, chosen, turn⟩
    · rw [same]
      exact ⟨all, start⟩
    · have next := Lane.Fits.nextHead all page plan.request.sort plan.turn
      rw [chosen] at next
      rcases turn with ⟨-, same⟩ | ⟨ri, s'', sent, -, taken, turn⟩
      · rw [same]
        exact ⟨fun lane mem => (next lane mem).1, start⟩
      · obtain ⟨after, short⟩ := Lane.Fits.takeRow fits (fun lane mem => (next lane mem).1)
          (fun lane mem => (next lane mem).2) plan ri
        rw [taken] at after short
        rcases turn with ⟨-, same⟩ | ⟨row, built, same⟩
        · rw [same]
          exact ih after start
        · rw [same]
          have grown := length_pushSent out row
          have path := short row built
          exact ih after (by omega)

omit [Externals] in
theorem length_finishFrame {bound : Nat} (small : out.length ≤ bound + 4) (header : 22 ≤ bound)
    (more : Bool) (count : Nat) : ((finishFrame out more count).drop 4).length ≤ bound := by
  simp only [finishFrame, Proto.patchResultsHeader, length_drop, length_append, Proto.length_leBytes,
    length_take, length_singleton]
  omega

theorem streamPages_length (fits : ∀ vol ∈ vols, vol.Fits) (all : ∀ lane ∈ s.lanes, lane.Fits vols) (plan : Plan)
    (summary : Proto.Summary) (mem : answer ∈ streamPages plan summary fuel page s) :
    (answer.frame.drop 4).length ≤ Proto.maxServerFrame := by
  induction fuel generalizing s page with
  | zero => cases mem
  | succ fuel ih =>
    have header := frameStart_small summary
    obtain ⟨after, small⟩ := fillPage_length fits all plan page Proto.pageRows
      (show (frameStart summary).length ≤ pageByteBudget + pathMax + 21 by omega)
    have budget : pageByteBudget + pathMax + 21 ≤ Proto.maxServerFrame := by decide
    unfold streamPages at mem
    rcases mem_cons.mp mem with rfl | later
    · exact length_finishFrame (by omega) (by decide) _ _
    · split at later
      · exact ih after later
      · cases later

end Sizes

variable [Externals] {q : QueryRequest}

omit [Externals] in
theorem mem_openLanes (mem : lane ∈ openLanes q vols) :
    lane.vol ∈ vols ∧ lane.run = { refs := firstHits q lane.vol } := by
  obtain ⟨vol, inside, rfl⟩ := mem_map.mp (mem_of_mem_filter mem)
  exact ⟨inside, rfl⟩

theorem counted_open (q : QueryRequest) (vols : List Searched) :
    Counted ((openLanes q vols).map (·.run.refs.length)).sum (planOf q (openLanes q vols)).turn
      { lanes := openLanes q vols, consumed := 0 } where
  count := by
    symm
    apply sum_eq_zero
    intro pos mem
    obtain ⟨lane, inside, rfl⟩ := mem_map.mp mem
    rw [(mem_openLanes inside).2]
  bound := by
    intro lane inside
    rw [(mem_openLanes inside).2]
    exact Nat.zero_le _
  total := rfl
  covers := by
    intro order is r inside
    simp only [planOf] at is
    split at is
    · have perm := volumesInTurn_perm is
      rw [length_map] at perm
      exact perm.mem_iff.mpr (mem_range.mpr inside)
    · cases is

theorem planOf_stop (q : QueryRequest) (lanes : List Lane) :
    (planOf q lanes).stop ≤ (lanes.map (·.run.refs.length)).sum ∧
      ∀ limit, q.limit = some limit → (planOf q lanes).stop ≤ (planOf q lanes).start + limit.toNat := by
  constructor
  · cases limited : q.limit with
    | none => simp [planOf, limited]
    | some limit => simp [planOf, limited]
  · intro limit limited
    simp [planOf, limited]

/-- The pages of a query end with one that says no more follow, and only that one does. A page has at most `pageRows`
rows, the pages together at most as many as the request allows, and no frame outgrows what a client accepts. -/
theorem paging_protocol (q : QueryRequest) (summary : Proto.Summary) (vols : List Searched) :
    (∃ n, (streamQuery q summary vols).map (·.more) = replicate n true ++ [false]) ∧
    (∀ answer ∈ streamQuery q summary vols, answer.rows.length ≤ Proto.pageRows) ∧
    (∀ limit, q.limit = some limit → 1 ≤ limit.toNat →
      ((streamQuery q summary vols).map (·.rows.length)).sum ≤ limit.toNat) ∧
    ((∀ vol ∈ vols, vol.Fits) →
      ∀ answer ∈ streamQuery q summary vols, (answer.frame.drop 4).length ≤ Proto.maxServerFrame) := by
  have counted := counted_open q vols
  obtain ⟨within, window⟩ := planOf_stop q (openLanes q vols)
  refine ⟨?_, ?_, ?_, ?_⟩
  · exact streamPages_more counted summary within 0 (Nat.lt_succ_of_le (Nat.sub_le _ _))
  · intro answer mem
    exact streamPages_rows counted summary mem
  · intro limit limited positive
    have sum := streamPages_limit counted summary (window limit limited) (Nat.zero_le _) (Nat.zero_le _) positive
      ((planOf q (openLanes q vols)).stop + 1) 0
    rw [Nat.zero_add] at sum
    exact sum
  · intro fits answer mem
    apply streamPages_length fits _ _ summary mem
    intro lane inside
    obtain ⟨source, run⟩ := mem_openLanes inside
    refine ⟨source, fun folder path found => ?_⟩
    rw [run] at found
    cases found

omit [Externals] in
theorem quietDrive_frames : letI := Externals.ascii
    ∀ answer ∈ streamQuery (byNameFrom 0 none) noSummary [quietDrive],
      (answer.frame.drop 4).length ≤ Proto.maxServerFrame := by
  let _ := Externals.ascii
  have fits : quietDrive.Fits := by
    refine ⟨fun _ => ⟨_, reachable_folderIndex⟩, fun page e live => ?_, by decide⟩
    have small : e < 3 := by
      have bound := reachable_folderIndex.invariant.integrity.slots.live_lt e live
      exact bound
    have cases : ∀ e < 3, (folderIndex.rawName e).length ≤ nameMax := by decide
    exact cases e small
  apply (paging_protocol (byNameFrom 0 none) noSummary [quietDrive]).2.2.2
  intro vol mem
  rw [mem_singleton.mp mem]
  exact fits

end Goz.Daemon
