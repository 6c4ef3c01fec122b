import Goz.Daemon.Order

namespace Goz.Daemon

open Function Merge VolumeIndex List Option

variable {q : QueryRequest} {vols : List Searched} {page : Nat} {plan : Plan} {pos : Nat → Nat}
variable {done todo : List Spot} {s : Heads}
variable [Externals] {r : Nat} {chunk rest : List Spot} {before start : Nat}

section TakeRow

variable {next : Nat → Nat} {lanes : List Lane} {vol : Searched}

omit [Externals] in
theorem rowPath_shown (run : Run) (memo : ∀ folder, run.memo folder ≠ some none) {index : VolumeIndex}
    {parent : EntryIdx} {parentPath : Bytes} (shown : shownPath index parent = some parentPath) (name mount : Bytes) :
    let built := run.rowPath index parent name mount
    built.1.refs = run.refs ∧ built.1.pos = run.pos ∧ built.1.headKey = run.headKey ∧
      (∀ folder, built.1.memo folder ≠ some none) ∧ ∃ path, built.2 = some path := by
  have kept : (run.refresh index).refs = run.refs ∧ (run.refresh index).pos = run.pos ∧
      (run.refresh index).headKey = run.headKey ∧ ∀ folder, (run.refresh index).memo folder ≠ some none := by
    unfold Run.refresh
    split
    · exact ⟨rfl, rfl, rfl, fun _ => by simp⟩
    · exact ⟨rfl, rfl, rfl, memo⟩
  obtain ⟨refs, pos, key, memo⟩ := kept
  simp only [Run.rowPath, Run.memoize]
  cases known : (run.refresh index).memo parent with
  | some built =>
    cases built with
    | none => exact absurd known (memo parent)
    | some path => exact ⟨refs, pos, key, memo, _, rfl⟩
  | none =>
    refine ⟨refs, pos, key, fun folder => ?_, _, by simp only [shown]; rfl⟩
    by_cases here : folder = parent
    · simp [here, shown]
    · simp only [update_of_ne here]
      exact memo folder

theorem Follows.set (follows : Follows q vols next lanes) (volAt : vols[r]? = some vol) {lane : Lane}
    {place : Nat} (tracks : lane.Tracks vol (firstHits q vol) place) :
    Follows q vols (update next r place) (lanes.set r lane) where
  length := by rw [length_set, follows.length]
  lane other vol' volAt' := by
    by_cases here : other = r
    · subst here
      obtain rfl := some.inj (volAt.symm.trans volAt')
      have run : other < lanes.length := by
        rw [follows.length]
        exact (List.getElem?_eq_some_iff.mp volAt).1
      exact ⟨lane, by simp [run], by rwa [update_self]⟩
    · obtain ⟨old, oldAt, tracks'⟩ := follows.lane other vol' volAt'
      exact ⟨old, by rw [getElem?_set_ne (Ne.symm here), oldAt], by rwa [update_of_ne here]⟩

theorem Follows.takeRow {s : Heads} (follows : Follows q vols next s.lanes) (steady : ∀ vol ∈ vols, Steady q.sort vol)
    (plan : Plan) (run : r < vols.length) (head : next r < held q vols r)
    (there : goneAt vols page (r, next r) = false) :
    Follows q vols (update next r (next r + 1)) (takeRow plan page s r).1.lanes ∧
      (takeRow plan page s r).1.consumed = s.consumed + 1 ∧
      ((takeRow plan page s r).2.map fun row => (row.run, row.pos)) =
        if s.consumed + 1 ≤ plan.start then none else some (r, next r) := by
  obtain ⟨vol, lane, volAt, laneAt, tracks⟩ := follows.vol_at run
  rw [held_eq q volAt] at head
  have hit := getElem?_eq_getElem head
  have mem := mem_of_getElem? (getElem?_firstHits hit)
  rw [goneAt_eq volAt (getElem?_firstHits hit)] at there
  have first := tracks.head.trans hit
  have taken : ({ lane with run := lane.run.takeHead } : Lane).Tracks vol (firstHits q vol) (next r + 1) :=
    ⟨tracks.source, tracks.hits, congrArg (· + 1) tracks.place, fun key found => (nomatch found), tracks.memo⟩
  unfold Daemon.takeRow
  simp only [laneAt, first]
  split
  · exact ⟨follows.set volAt taken, rfl, rfl⟩
  · obtain ⟨parent, parentPath, parentAt, shown⟩ :=
      (steady vol (mem_of_getElem? volAt)).shown page _ mem there
    obtain ⟨refs, pos, key, memo, path, built⟩ := rowPath_shown lane.run.takeHead tracks.memo shown
      ((vol.later page).rawName (firstHits q vol)[next r].idx) vol.mountPrefix
    simp only [buildRow, Lane.guard, tracks.source, parentAt, built]
    refine ⟨follows.set volAt ⟨rfl, ?_, ?_, ?_, memo⟩, trivial, ?_⟩
    · rw [refs]
      exact tracks.hits
    · rw [pos]
      exact congrArg (· + 1) tracks.place
    · intro key' found
      rw [key] at found
      cases found
    · simp [Run.takeHead, tracks.place]

end TakeRow

section Page

variable {skipped : List Spot} {y : Spot}

def heldRows (q : QueryRequest) (vols : List Searched) : List Spot :=
  merged (rowCmp q.sort vols) (held q vols) vols.length

/-- When counting positions comes out right: the query wants everything, or no row vanishes out of
    order; and it wants the last row held, or the last row it wants stays. -/
structure Countable (q : QueryRequest) (vols : List Searched) (plan : Plan) : Prop where
  request : plan.request = q
  turn : plan.turn = turnOf q.sort vols
  stop : plan.stop ≤ (heldRows q vols).length
  order : plan.start = 0 ∧ plan.stop = (heldRows q vols).length ∨
    ∀ page, Orderly (rowCmp q.sort vols) (held q vols) vols.length (fun x => goneAt vols page x = true)
  last : plan.stop = (heldRows q vols).length ∨
    ∃ x, (heldRows q vols)[plan.stop - 1]? = some x ∧ ∀ page, goneAt vols page x = false

/-- The pages so far have brought the merged order up to the end of `done`. -/
structure Reached (q : QueryRequest) (vols : List Searched) (plan : Plan) (page : Nat) (pos : Nat → Nat)
    (done todo : List Spot) (s : Heads) : Prop where
  follows : Follows q vols pos s.lanes
  front : Front (rowCmp q.sort vols) (held q vols) vols.length (fun x => goneAt vols page x = true) pos done todo
  counted : s.consumed = ((range vols.length).map pos).sum
  within : done.length ≤ plan.stop

def Finished (vols : List Searched) (plan : Plan) (page : Nat) (done todo : List Spot) : Prop :=
  plan.stop ≤ done.length ∨ ∀ x ∈ todo, goneAt vols page x = true

theorem Reached.total (reached : Reached q vols plan page pos done todo s) :
    (heldRows q vols).length = done.length + todo.length := by
  rw [heldRows, ← reached.front.whole, length_append]

theorem Reached.all_read (reached : Reached q vols plan page pos done todo s)
    (full : (heldRows q vols).length ≤ s.consumed) : ∀ x ∈ todo, goneAt vols page x = true := by
  have read : ∀ r < vols.length, pos r = held q vols r := by
    have le : ∀ r ∈ range vols.length, pos r ≤ held q vols r := fun r mem =>
      reached.front.bound r (mem_range.mp mem)
    have sums : ((range vols.length).map (held q vols)).sum ≤ ((range vols.length).map pos).sum := by
      rw [← reached.counted, ← length_merged]
      exact full
    intro r run
    by_contra short
    have lt : pos r < held q vols r := lt_of_le_of_ne (reached.front.bound r run) short
    have sum_lt := sum_lt_sum _ _ le ⟨r, mem_range.mpr run, lt⟩
    omega
  intro x mem
  obtain ⟨run, bound⟩ := reached.front.mem.mp (.inr mem)
  exact reached.front.early x mem (by rw [read x.1 run]; exact bound)

def Aligned (q : QueryRequest) (vols : List Searched) (plan : Plan) (pos : Nat → Nat) (todo : List Spot) : Prop :=
  plan.start = 0 ∧ plan.stop = (heldRows q vols).length ∨ Exact pos todo

variable (reached : Reached q vols plan page pos done todo s)
include reached

theorem Reached.stall (countable : Countable q vols plan)
    (steady : ∀ vol ∈ vols, Steady q.sort vol) (none_ : (nextHead plan.request.sort plan.turn page s).2 = none) :
    ∃ next, Reached q vols plan page next done todo (nextHead plan.request.sort plan.turn page s).1 ∧
      plan.stop ≤ (nextHead plan.request.sort plan.turn page s).1.consumed ∧
      ∀ x ∈ todo, goneAt vols page x = true := by
  obtain ⟨next, skims, follows, best, counted⟩ := reached.follows.nextHead steady reached.front.bound page
  rw [countable.request, countable.turn] at none_ ⊢
  rw [none_] at best
  have front := reached.front.skim skims
  have after : Reached q vols plan page next done todo (nextHead q.sort (turnOf q.sort vols) page s).1 :=
    ⟨follows, front, counted reached.counted, reached.within⟩
  refine ⟨next, after, ?_, reached.front.stall skims best⟩
  have all : (range vols.length).map next = (range vols.length).map (held q vols) := by
    apply map_congr_left
    intro r mem
    have run := mem_range.mp mem
    have le := skims.bound r run
    have ended := best r run
    omega
  rw [after.counted, all, ← length_merged]
  exact countable.stop

theorem Reached.step (countable : Countable q vols plan)
    (steady : ∀ vol ∈ vols, Steady q.sort vol) (sorted : Sorted (rowCmp q.sort vols) (held q vols) vols.length)
    (aligned : Aligned q vols plan pos todo) (short : s.consumed < plan.stop)
    (some_ : (nextHead plan.request.sort plan.turn page s).2 = some r) :
    ∃ skipped y rest pos', todo = skipped ++ y :: rest ∧ (∀ x ∈ skipped, goneAt vols page x = true) ∧
      goneAt vols page y = false ∧
      Reached q vols plan page pos' (done ++ skipped ++ [y]) rest
        (takeRow plan page (nextHead plan.request.sort plan.turn page s).1 r).1 ∧
      Aligned q vols plan pos' rest ∧
      s.consumed < (takeRow plan page (nextHead plan.request.sort plan.turn page s).1 r).1.consumed ∧
      ((takeRow plan page (nextHead plan.request.sort plan.turn page s).1 r).2.map fun row => (row.run, row.pos)) =
        if done.length + skipped.length < plan.start then none else some y := by
  obtain ⟨next, skims, follows, best, counted⟩ := reached.follows.nextHead steady reached.front.bound page
  rw [countable.request, countable.turn] at some_ ⊢
  rw [some_] at best
  obtain ⟨run, head, first⟩ := best
  have picks : Picks (rowCmp q.sort vols) (held q vols) vols.length next r := ⟨run, head, first⟩
  have there : goneAt vols page (r, next r) = false := Bool.eq_false_iff.mpr (skims.head r run head)
  obtain ⟨skipped, rest, split, passed, front⟩ := reached.front.step sorted skims picks
  obtain ⟨follows', consumed, row⟩ := follows.takeRow steady plan run head there
  set chosen := (nextHead q.sort (turnOf q.sort vols) page s).1
  have before := counted reached.counted
  have grown : s.consumed ≤ chosen.consumed := by
    rw [reached.counted, before]
    exact sum_le_sum fun k mem => skims.le k (mem_range.mp mem)
  have after : (takeRow plan page chosen r).1.consumed =
      ((range vols.length).map (update next r (next r + 1))).sum := by
    rw [consumed, before, sum_update run]
  have aligned' : Aligned q vols plan (update next r (next r + 1)) rest := by
    rcases countable.order with whole | orderly
    · exact .inl whole
    · exact .inr (reached.front.step_exact (orderly page) skims picks split)
  have total := reached.total
  rw [split, length_append, length_cons] at total
  have within : done.length + skipped.length + 1 ≤ plan.stop := by
    rcases countable.last with all | ⟨x, at_, kept⟩
    · omega
    · have behind : done.length < plan.stop := by
        rcases aligned with ⟨-, all⟩ | exact_
        · omega
        · rw [← reached.front.count exact_, ← reached.counted]
          exact short
      rw [heldRows, ← reached.front.whole, getElem?_append_right (by omega), split] at at_
      by_contra beyond
      rw [getElem?_append_left (by omega)] at at_
      have out := passed x (mem_of_getElem? at_)
      rw [kept page] at out
      cases out
  refine ⟨skipped, (r, next r), rest, _, split, passed, there, ⟨follows', front, after, ?_⟩, aligned', by omega, ?_⟩
  · simp only [length_append, length_singleton]
    exact within
  · rw [row]
    rcases aligned' with ⟨zero, -⟩ | exact_
    · simp [zero]
    · have count := front.count exact_
      rw [← after, consumed] at count
      simp only [length_append, length_singleton] at count
      congr 1
      simp only [eq_iff_iff]
      omega

theorem Reached.finished (aligned : Aligned q vols plan pos todo)
    (ended : ¬ s.consumed < plan.stop) : Finished vols plan page done todo := by
  rcases aligned with ⟨-, whole⟩ | exact_
  · exact .inr (reached.all_read (by omega))
  · have count := reached.front.count exact_
    rw [← reached.counted] at count
    exact .inl (by omega)

omit reached

/-- A page takes the merged order on by a chunk and sends of it what is there and in the window. -/
structure Sends (q : QueryRequest) (vols : List Searched) (plan : Plan) (page : Nat) (done todo : List Spot) (s : Heads)
    (filled : Filled) (chunk rest : List Spot) (pos : Nat → Nat) : Prop where
  split : todo = chunk ++ rest
  reached : Reached q vols plan page pos (done ++ chunk) rest filled.heads
  rows : (filled.rows.map fun row => (row.run, row.pos)) =
    (chunk.drop (plan.start - done.length)).filter fun x => !goneAt vols page x
  grows : s.consumed ≤ filled.heads.consumed
  goesOn : filled.heads.consumed < plan.stop → Aligned q vols plan pos rest
  ends : ¬ filled.heads.consumed < plan.stop → Finished vols plan page (done ++ chunk) rest

theorem Reached.rests (reached : Reached q vols plan page pos done todo s) (aligned : Aligned q vols plan pos todo)
    (out : Bytes) : Sends q vols plan page done todo s { heads := s, out := out, rows := [] } [] todo pos where
  split := rfl
  reached := by rwa [append_nil]
  rows := by simp
  grows := le_rfl
  goesOn _ := aligned
  ends ended := by
    rw [append_nil]
    exact reached.finished aligned ended

omit [Externals] in
theorem sent_rows {gone : Spot → Bool} {more : List Spot}
    (passed : ∀ x ∈ skipped, gone x = true) (there : gone y = false) :
    ((skipped ++ y :: more).drop (start - before)).filter (fun x => !gone x) =
      (if before + skipped.length < start then [] else [y]) ++
        (more.drop (start - (before + skipped.length + 1))).filter fun x => !gone x := by
  have dropped : ∀ n, (skipped.drop n).filter (fun x => !gone x) = [] := by
    intro n
    apply filter_eq_nil_iff.mpr
    intro x mem
    simp [passed x (mem_of_mem_drop mem)]
  rw [drop_append, filter_append, dropped, nil_append]
  split
  case isTrue early =>
    obtain ⟨n, eq⟩ : ∃ n, start - before - skipped.length = n + 1 := ⟨start - before - skipped.length - 1, by omega⟩
    have rest : start - (before + skipped.length + 1) = n := by omega
    rw [eq, rest]
    rfl
  case isFalse late =>
    have none_ : start - before - skipped.length = 0 := by omega
    have rest : start - (before + skipped.length + 1) = 0 := by omega
    simp [none_, rest, there]

theorem Sends.prepend {s' : Heads} {filled : Filled} {rest' : List Spot}
    (sends : Sends q vols plan page (done ++ skipped ++ [y]) rest s' filled chunk rest' pos)
    (split : todo = skipped ++ y :: rest) (passed : ∀ x ∈ skipped, goneAt vols page x = true)
    (there : goneAt vols page y = false) (grows : s.consumed < s'.consumed) {sent : Option Sent}
    (row : (sent.map fun row => (row.run, row.pos)) =
      if done.length + skipped.length < plan.start then none else some y) :
    Sends q vols plan page done todo s { filled with rows := sent.toList ++ filled.rows } (skipped ++ y :: chunk) rest'
      pos := by
  have together : done ++ skipped ++ [y] ++ chunk = done ++ (skipped ++ y :: chunk) := by simp
  have first : (sent.toList.map fun row => (row.run, row.pos)) =
      if done.length + skipped.length < plan.start then [] else [y] := by
    rw [← toList_map, row]
    split <;> rfl
  refine ⟨?_, together ▸ sends.reached, ?_, le_trans (le_of_lt grows) sends.grows, sends.goesOn, together ▸ sends.ends⟩
  · rw [split, sends.split]
    simp
  · rw [sent_rows passed there, map_append, first, sends.rows]
    simp [Nat.add_assoc]

theorem Reached.fillPage (reached : Reached q vols plan page pos done todo s) (countable : Countable q vols plan)
    (steady : ∀ vol ∈ vols, Steady q.sort vol) (sorted : Sorted (rowCmp q.sort vols) (held q vols) vols.length)
    (aligned : Aligned q vols plan pos todo) (left : Nat) (out : Bytes) :
    (∃ chunk rest pos', Sends q vols plan page done todo s (fillPage plan page left s out) chunk rest pos') ∧
      (0 < left → out.length < pageByteBudget → s.consumed < plan.stop →
        s.consumed < (fillPage plan page left s out).heads.consumed) := by
  induction left generalizing s out pos done todo with
  | zero => exact ⟨⟨[], todo, pos, reached.rests aligned out⟩, fun pos => absurd pos (lt_irrefl 0)⟩
  | succ left ih =>
    unfold Daemon.fillPage
    split
    case isFalse full =>
      refine ⟨⟨[], todo, pos, reached.rests aligned out⟩, fun _ small short => ?_⟩
      exact absurd ⟨short, small⟩ full
    case isTrue room =>
      obtain ⟨short, -⟩ := room
      cases chosen : nextHead plan.request.sort plan.turn page s with
      | mk s' best =>
        cases best with
        | none =>
          obtain ⟨next, stalled, stop, gone⟩ := reached.stall countable steady (by rw [chosen])
          rw [chosen] at stalled stop
          have grows : s.consumed < s'.consumed := lt_of_lt_of_le short stop
          refine ⟨⟨[], todo, next, rfl, by rwa [append_nil], by simp, le_of_lt grows, fun more => ?_,
            fun _ => .inr gone⟩, fun _ _ _ => grows⟩
          exact absurd more (not_lt.mpr stop)
        | some r =>
          obtain ⟨skipped, y, rest, pos', split, passed, there, reached', aligned', grows, row⟩ :=
            reached.step countable steady sorted aligned short (by rw [chosen])
          rw [chosen] at reached' grows row
          cases taken : takeRow plan page s' r with
          | mk s'' sent =>
            rw [taken] at reached' grows row
            have sends : ∀ out', ∃ chunk rest' pos'', Sends q vols plan page done todo s
                { Daemon.fillPage plan page left s'' out' with
                  rows := sent.toList ++ (Daemon.fillPage plan page left s'' out').rows } chunk rest' pos'' := by
              intro out'
              obtain ⟨⟨chunk, rest', pos'', onward⟩, -⟩ := ih reached' aligned' out'
              exact ⟨_, _, _, onward.prepend split passed there grows row⟩
            have later : ∀ out', s.consumed < (Daemon.fillPage plan page left s'' out').heads.consumed := by
              intro out'
              obtain ⟨⟨chunk, rest', pos'', onward⟩, -⟩ := ih reached' aligned' out'
              exact lt_of_lt_of_le grows onward.grows
            simp only [taken]
            cases sent with
            | none => exact ⟨sends out, fun _ _ _ => later out⟩
            | some sent => exact ⟨sends (pushSent out sent), fun _ _ _ => later (pushSent out sent)⟩

end Page

theorem goneAt_mono (steady : ∀ vol ∈ vols, Steady q.sort vol) {x : Spot} (gone : goneAt vols page x = true) :
    goneAt vols (page + 1) x = true := by
  unfold goneAt at gone ⊢
  cases volAt : vols[x.1]? with
  | none => simp [volAt] at gone
  | some vol =>
    cases hit : vol.hits[x.2]? with
    | none => simp [volAt, hit] at gone
    | some h =>
      simp only [volAt, hit, map_some, getD_some] at gone ⊢
      exact (steady vol (mem_of_getElem? volAt)).gone page h (mem_of_getElem? hit) gone

theorem Reached.nextPage (reached : Reached q vols plan page pos done todo s)
    (steady : ∀ vol ∈ vols, Steady q.sort vol) : Reached q vols plan (page + 1) pos done todo s :=
  { reached with front := reached.front.weaken fun _ gone => goneAt_mono steady gone }

omit [Externals] in
theorem frameStart_small (summary : Proto.Summary) : (frameStart summary).length < pageByteBudget := by
  have budget : pageByteBudget = 8388608 := by decide
  rw [budget]
  unfold frameStart Proto.pushResultsHeader
  cases summary.totalSize <;> simp [Proto.leBytes]

omit [Externals] in
theorem window_append {stop : Nat} (within : before + chunk.length ≤ stop) :
    ((chunk ++ rest).take (stop - before)).drop (start - before) =
      chunk.drop (start - before) ++ (rest.take (stop - (before + chunk.length))).drop (start - (before + chunk.length)) := by
  rw [take_append, take_of_length_le (by omega), drop_append, Nat.sub_sub, Nat.sub_sub]

/-- The pages send the window chunk by chunk, each as far as it is there when the page is built. -/
theorem Reached.streamPages (countable : Countable q vols plan) (steady : ∀ vol ∈ vols, Steady q.sort vol)
    (sorted : Sorted (rowCmp q.sort vols) (held q vols) vols.length) (summary : Proto.Summary) {fuel : Nat}
    (reached : Reached q vols plan page pos done todo s) (aligned : Aligned q vols plan pos todo)
    (enough : plan.stop - s.consumed < fuel) :
    ∃ chunks : List (List Spot), chunks.flatten = (todo.take (plan.stop - done.length)).drop (plan.start - done.length) ∧
      ((streamPages plan summary fuel page s).map fun page => page.rows.map fun row => (row.run, row.pos)) =
        (chunks.zipIdx page).map fun chunk => chunk.1.filter fun x => !goneAt vols chunk.2 x := by
  induction fuel generalizing s page pos done todo with
  | zero => omega
  | succ fuel ih =>
    obtain ⟨⟨chunk, rest, pos', sends⟩, grows⟩ :=
      reached.fillPage countable steady sorted aligned Proto.pageRows (frameStart summary)
    have within := sends.reached.within
    rw [length_append] at within
    rw [sends.split, window_append within]
    unfold Daemon.streamPages
    set filled := Daemon.fillPage plan page Proto.pageRows s (frameStart summary)
    by_cases more : filled.heads.consumed < plan.stop
    · have grown := grows (by decide) (frameStart_small summary) (lt_of_le_of_lt sends.grows more)
      obtain ⟨chunks, whole, pages⟩ := ih (sends.reached.nextPage steady) (sends.goesOn more) (by omega)
      rw [length_append] at whole
      refine ⟨chunk.drop (plan.start - done.length) :: chunks, by rw [flatten_cons, whole], ?_⟩
      simp only [more, decide_true, if_true, map_cons, zipIdx_cons, pages, sends.rows]
    · -- what is left of the window, if anything, is gone
      have last : ((rest.take (plan.stop - (done.length + chunk.length))).drop
          (plan.start - (done.length + chunk.length))).filter (fun x => !goneAt vols page x) = [] := by
        rcases sends.ends more with ended | gone
        · rw [length_append] at ended
          simp [Nat.sub_eq_zero_of_le ended]
        · apply filter_eq_nil_iff.mpr
          intro x mem
          simp [gone x (mem_of_mem_take (mem_of_mem_drop mem))]
      refine ⟨[_], flatten_singleton, ?_⟩
      simp only [more, decide_false, Bool.false_eq_true, if_false, map_cons, map_nil, zipIdx_cons,
        zipIdx_nil, sends.rows, filter_append, last, append_nil]

end Goz.Daemon
