import Goz.Index.NameRuns
import Goz.Query.Compile

namespace Goz.Query

open List Arena

variable {first stop : Nat} {needle : Bytes}

section Model

variable (pairs : NameId → NamePair) (needle hay : Bytes) (first stop : Nat)

def seedCursor (pos : Nat) : Nat :=
  first + (((range' first (stop - first)).takeWhile fun id => (pairs id).folded.off ≤ pos).length - 1)

def advanceCursor (pos : Nat) : Nat → Nat → Nat
  | 0, cursor => cursor
  | fuel + 1, cursor =>
    if cursor + 1 < stop ∧ (pairs (cursor + 1)).folded.off ≤ pos then advanceCursor pos fuel (cursor + 1) else cursor

def moveCursor (pos : Nat) : Option Nat → Nat
  | none => seedCursor pairs first stop pos
  | some cursor => advanceCursor pairs stop pos (stop - cursor) cursor

/-- The loop of `for_each_prefilter_hit_in`: the hits from position `at_` on. Each turn moves on by a
    byte at least. -/
def hitsFrom : Nat → Option Nat → Nat → List NameId
  | 0, _, _ => []
  | fuel + 1, cursor, at_ =>
    if at_ ≤ hay.length then
      match Search.find needle (hay.drop at_) with
      | none => []
      | some rel =>
        let pos := at_ + rel
        let id := moveCursor pairs first stop pos cursor
        let name := (pairs id).folded
        id :: hitsFrom fuel (some id) (max (name.off + name.len + 1) (pos + 1))
    else []

end Model

/-- The names with ids in `[first, stop)` whose folded bytes hold `needle`. No name holds a NUL. -/
def prefilterHitsIn (s : NameStore) (needle : Bytes) (first stop : Nat) : List NameId :=
  if needle.contains 0 || stop ≤ first then []
  else
    let hay := if stop < s.ids then s.folded.take (s.pairs stop).folded.off else s.folded
    hitsFrom s.pairs needle hay first stop (hay.length + 1) none (s.pairs first).folded.off

def prefilterHits (s : NameStore) (needle : Bytes) : List NameId := prefilterHitsIn s needle 0 s.ids

section Hits

variable {pairs : NameId → NamePair} {cells : List Bytes} {fuel pos id i : Nat}

structure Celled (pairs : NameId → NamePair) (cells : List Bytes) : Prop where
  folded_ref : ∀ id cell, cells[id]? = some cell →
    (pairs id).folded = { off := start 0 cells id, len := cell.length }

theorem Celled.off_lt (celled : Celled pairs cells) {j : Nat} (lt : i < j) (inside : j < cells.length) :
    (pairs i).folded.off < (pairs j).folded.off := by
  rw [celled.folded_ref i _ (getElem?_eq_getElem (lt.trans inside)), celled.folded_ref j _ (getElem?_eq_getElem inside)]
  have next := start_succ 0 (getElem?_eq_getElem (lt.trans inside))
  have mono : start 0 cells (i + 1) ≤ start 0 cells j := start_mono 0 cells lt
  simp only
  omega

theorem find_join (apart : 0 ∉ needle) (nonempty : needle ≠ []) (cells : List Bytes) :
    match Search.find needle (Arena.join 0 cells) with
    | none => ∀ cell ∈ cells, ¬ needle <:+: cell
    | some pos => ∃ j cell, cells[j]? = some cell ∧ needle <:+: cell ∧ start 0 cells j ≤ pos ∧
        pos < start 0 cells j + cell.length ∧ ∀ i < j, ∀ other, cells[i]? = some other → ¬ needle <:+: other := by
  induction cells with
  | nil => simp [Arena.join, Search.find, nonempty]
  | cons cell rest ih =>
    rw [join_cons, Search.find_append_cons apart nonempty]
    cases here : Search.find needle cell with
    | some pos =>
      have fits := Search.find_le here
      have inside : needle <:+: cell := Search.find_isSome_iff.mp (by simp [here])
      have long := length_pos_iff.mpr nonempty
      refine ⟨0, cell, rfl, inside, by simp, ?_, by simp⟩
      rw [start_zero]
      omega
    | none =>
      have away := Search.find_eq_none_iff.mp here
      cases later : Search.find needle (Arena.join 0 rest) with
      | none =>
        rw [later] at ih
        simpa [away] using ih
      | some pos =>
        rw [later] at ih
        obtain ⟨j, other, at_, inside, low, high, before⟩ := ih
        have here : start 0 (cell :: rest) (j + 1) = cell.length + 1 + start 0 rest j :=
          start_cons_succ 0 cell rest j
        refine ⟨j + 1, other, by simpa using at_, inside, ?_, ?_, ?_⟩
        · show _ ≤ pos + (cell.length + 1)
          omega
        · show pos + (cell.length + 1) < _
          omega
        · intro i lt other at_
          cases i with
          | zero =>
            obtain rfl : cell = other := by simpa using at_
            exact away
          | succ i => exact before i (by omega) other (by simpa using at_)

theorem range'_split {mid : Nat} (low : first ≤ mid) (high : mid ≤ stop) :
    range' first (stop - first) = range' first (mid - first) ++ range' mid (stop - mid) := by
  have joined : range' first (mid - first) ++ range' (first + (mid - first)) (stop - mid) =
      range' first ((mid - first) + (stop - mid)) := List.range'_append_1
  rw [show first + (mid - first) = mid by omega, show (mid - first) + (stop - mid) = stop - first by omega] at joined
  exact joined.symm

/-- The name a hit at `pos` lies in is the last one that starts at or before it. -/
structure Lies (pairs : NameId → NamePair) (stop pos id : Nat) : Prop where
  inside : id < stop
  before : ∀ k ≤ id, (pairs k).folded.off ≤ pos
  after : ∀ k, id < k → k < stop → pos < (pairs k).folded.off

theorem Lies.seedCursor_eq (lies : Lies pairs stop pos id) (low : first ≤ id) :
    seedCursor pairs first stop pos = id := by
  have upto : ∀ k ∈ range' first (id + 1 - first), decide ((pairs k).folded.off ≤ pos) = true := by
    intro k mem
    have range := mem_range'_1.mp mem
    exact decide_eq_true (lies.before k (by omega))
  have rest : (range' (id + 1) (stop - (id + 1))).takeWhile (fun k => decide ((pairs k).folded.off ≤ pos)) = [] := by
    have inside := lies.inside
    cases left : stop - (id + 1) with
    | zero => rfl
    | succ n =>
      have later := lies.after (id + 1) (by omega) (by omega)
      rw [List.range'_succ, takeWhile_cons_of_neg]
      simpa using later
  have high : id + 1 ≤ stop := lies.inside
  rw [seedCursor, range'_split (show first ≤ id + 1 by omega) high, takeWhile_append_of_pos upto, rest,
    append_nil, length_range']
  omega

theorem Lies.advanceCursor_eq {cursor : Nat} (lies : Lies pairs stop pos id) (low : cursor ≤ id)
    (enough : id ≤ cursor + fuel) : advanceCursor pairs stop pos fuel cursor = id := by
  have inside := lies.inside
  induction fuel generalizing cursor with
  | zero => exact Nat.le_antisymm low enough
  | succ fuel ih =>
    rw [advanceCursor]
    by_cases here : cursor = id
    · subst here
      apply if_neg
      rintro ⟨below, starts⟩
      have later := lies.after (cursor + 1) (by omega) below
      omega
    · rw [if_pos ⟨by omega, lies.before (cursor + 1) (by omega)⟩]
      exact ih (by omega) (by omega)

theorem hitsFrom_eq (celled : Celled pairs cells) (apart : 0 ∉ needle) (nonempty : needle ≠ []) (bound : stop ≤ cells.length) (cursor : Option Nat) (low : first ≤ i) (high : i ≤ stop) (behind : ∀ c, cursor = some c → c < i)
    (enough : stop - i < fuel) :
    hitsFrom pairs needle (Arena.join 0 (cells.take stop)) first stop fuel cursor (start 0 cells i) =
      (range' i (stop - i)).filter fun id => needle <:+: (cells[id]?.getD []) := by
  induction fuel generalizing i cursor with
  | zero => omega
  | succ fuel ih =>
    have taken : (cells.take stop).length = stop := length_take_of_le bound
    have begins : ∀ k ≤ stop, start 0 cells k = start 0 (cells.take stop) k := by
      intro k le
      conv_lhs => rw [← take_append_drop stop cells]
      exact start_append 0 (by omega)
    have reaches : start 0 cells i ≤ (Arena.join 0 (cells.take stop)).length := by
      rw [begins i high]
      exact start_le_length 0 _ i
    have reads : ∀ k, ((cells.take stop).drop i)[k]? = if i + k < stop then cells[i + k]? else none := by
      intro k
      rw [getElem?_drop, getElem?_take]
    rw [hitsFrom, if_pos reaches, begins i high, drop_join]
    have spec := find_join apart nonempty ((cells.take stop).drop i)
    cases found : Search.find needle (Arena.join 0 ((cells.take stop).drop i)) with
    | none =>
      rw [found] at spec
      symm
      rw [filter_eq_nil_iff]
      intro id mem
      have range := mem_range'_1.mp mem
      have inside : id < cells.length := by omega
      have here := reads (id - i)
      rw [show i + (id - i) = id by omega, if_pos (by omega), getElem?_eq_getElem inside] at here
      simpa [getElem?_eq_getElem inside] using spec _ (mem_of_getElem? here)
    | some rel =>
      rw [found] at spec
      obtain ⟨j, cell, at_, holds, from_, upto, before⟩ := spec
      rw [reads] at at_
      split at at_
      case isFalse => cases at_
      case isTrue inside =>
        have ref := celled.folded_ref (i + j) cell at_
        have offset : start 0 cells (i + j) = start 0 (cells.take stop) i +
            start 0 ((cells.take stop).drop i) j := by
          rw [begins (i + j) (by omega), start_add]
        have lies : Lies pairs stop (start 0 (cells.take stop) i + rel) (i + j) := by
          refine ⟨inside, fun k le => ?_, fun k lt below => ?_⟩
          · have first : (pairs (i + j)).folded.off ≤ start 0 (cells.take stop) i + rel := by
              rw [ref]
              simp only
              omega
            rcases Nat.lt_or_eq_of_le le with lt | rfl
            · exact ((celled.off_lt lt (by omega)).le).trans first
            · exact first
          · have next := start_succ 0 at_
            have mono : start 0 cells (i + j + 1) ≤ start 0 cells k := start_mono 0 cells lt
            rw [celled.folded_ref k _ (getElem?_eq_getElem (show k < cells.length by omega))]
            simp only
            omega
        have id_eq : moveCursor pairs first stop (start 0 (cells.take stop) i + rel) cursor = i + j := by
          cases cursor with
          | none => exact lies.seedCursor_eq (by omega)
          | some c =>
            have lt := behind c rfl
            exact lies.advanceCursor_eq (by omega) (by omega)
        have next : max ((pairs (i + j)).folded.off + (pairs (i + j)).folded.len + 1)
            (start 0 (cells.take stop) i + rel + 1) = start 0 cells (i + j + 1) := by
          rw [start_succ 0 at_, ref]
          simp only
          omega
        have skipped : (range' i j).filter (fun id => decide (needle <:+: (cells[id]?.getD []))) = [] := by
          rw [filter_eq_nil_iff]
          intro id mem
          have range := mem_range'_1.mp mem
          have here := reads (id - i)
          have known : id < cells.length := by omega
          rw [show i + (id - i) = id by omega, if_pos (by omega), getElem?_eq_getElem known] at here
          simpa [getElem?_eq_getElem known] using before (id - i) (by omega) _ here
        have later := ih (some (i + j)) (by omega) (by omega : i + j + 1 ≤ stop) (fun c same => by
          obtain rfl := Option.some.inj same
          exact Nat.lt_succ_self _) (by omega)
        dsimp only
        rw [id_eq, next, later, range'_split (show i ≤ i + j by omega) inside.le, filter_append,
          show i + j - i = j by omega, skipped, nil_append, show stop - (i + j) = (stop - (i + j + 1)) + 1 by omega,
          List.range'_succ, filter_cons_of_pos (by simpa [at_] using holds)]

end Hits

open NameStore

variable {s : NameStore} {cuts : List Nat}

theorem prefilterHitsIn_eq (laid : Laid s.raw s.folded s.pairs s.ids) (nonempty : needle ≠ [])
    (bound : stop ≤ s.ids) : prefilterHitsIn s needle first stop =
      (range' first (stop - first)).filter fun id => 0 ∉ needle ∧ needle <:+: s.foldedBytesOf id := by
  obtain ⟨cells, rawCells, rawAt, laid⟩ := laid
  unfold prefilterHitsIn
  by_cases apart : 0 ∈ needle
  · simp [apart]
  by_cases some_ : stop ≤ first
  · simp [some_]
  have hay : (if stop < s.ids then s.folded.take (s.pairs stop).folded.off else s.folded) = Arena.join 0 (cells.take stop) := by
    split
    case isTrue inside =>
      obtain ⟨cell, at_⟩ := laid.cell inside
      rw [laid.folded_ref stop cell at_, laid.folded_eq, take_join]
    case isFalse whole =>
      rw [take_of_length_le (by rw [laid.length_eq]; omega), laid.folded_eq]
  have length := length_le_join 0 (cells.take stop)
  rw [length_take_of_le (by rw [laid.length_eq]; exact bound)] at length
  obtain ⟨cell, at_⟩ := laid.cell (show first < s.ids by omega)
  rw [if_neg (by simp [apart, some_]), hay, laid.folded_ref first cell at_]
  have found := hitsFrom_eq ⟨laid.folded_ref⟩ apart nonempty (laid.length_eq.symm ▸ bound) none le_rfl (by omega : first ≤ stop)
    (by simp) (by omega : stop - first < (Arena.join 0 (cells.take stop)).length + 1)
  refine found.trans (filter_congr fun id mem => ?_)
  have range := mem_range'_1.mp mem
  obtain ⟨own, here⟩ := laid.cell (show id < s.ids by omega)
  have read : s.foldedBytesOf id = own := laid.folded_read here
  simp [here, read, apart]

theorem Tidy.live_of_infix [Externals] (tidy : s.Tidy) (apart : 0 ∉ needle) (nonempty : needle ≠ []) {id : NameId} (below : id < s.ids)
    (held : needle <:+: s.foldedBytesOf id) : s.Live id := by
  by_contra dead
  obtain ⟨b, mem⟩ := exists_mem_of_ne_nil needle nonempty
  have zero := tidy.blanked id below dead b (held.subset mem)
  exact apart (zero ▸ mem)

/-- Consecutive ranges from `first` on: up to each cut in turn, and from the last cut to `stop`. -/
def rangesAt (first stop : Nat) : List Nat → List (Nat × Nat)
  | [] => [(first, stop)]
  | cut :: cuts => (first, cut) :: rangesAt cut stop cuts

theorem mem_rangesAt {range : Nat × Nat} (mem : range ∈ rangesAt first stop cuts) :
    range.2 = stop ∨ range.2 ∈ cuts := by
  induction cuts generalizing first with
  | nil =>
    rw [mem_singleton.mp mem]
    exact .inl rfl
  | cons cut cuts ih =>
    rcases mem_cons.mp mem with rfl | later
    · exact .inr (mem_cons_self ..)
    · exact (ih later).imp_right (mem_cons_of_mem _)

theorem flatMap_rangesAt (p : Nat → Bool) (ordered : (first :: cuts).Pairwise (· ≤ ·))
    (inside : ∀ cut ∈ first :: cuts, cut ≤ stop) :
    ((rangesAt first stop cuts).flatMap fun range => (range' range.1 (range.2 - range.1)).filter p) =
      (range' first (stop - first)).filter p := by
  induction cuts generalizing first with
  | nil => simp [rangesAt]
  | cons cut cuts ih =>
    obtain ⟨ahead, later⟩ := pairwise_cons.mp ordered
    have low := ahead cut (mem_cons_self ..)
    have high := inside cut (mem_cons_of_mem _ (mem_cons_self ..))
    have rest := ih later fun c mem => inside c (mem_cons_of_mem _ mem)
    rw [rangesAt, flatMap_cons, rest, range'_split low high, filter_append]

/-- The scan of the arena finds the live names that hold the needle, once each and in order, whatever range of ids it is given, and
    the scans of consecutive ranges put together are that of all ids. -/
theorem arena_scan_finds_names [Externals] (reached : s.Reached) (names : ∀ id, s.Live id → 0 ∉ s.foldedBytesOf id)
    (nonempty : needle ≠ []) :
    (∀ first stop, stop ≤ s.ids → prefilterHitsIn s needle first stop =
      (range' first (stop - first)).filter fun id => s.Live id ∧ needle <:+: s.foldedBytesOf id) ∧
    ∀ cuts : List Nat, cuts.Pairwise (· ≤ ·) → (∀ cut ∈ cuts, cut ≤ s.ids) →
      ((rangesAt 0 s.ids cuts).flatMap fun range => prefilterHitsIn s needle range.1 range.2) = prefilterHits s needle := by
  have tidy := reached.tidy
  have exact_ : ∀ first stop, stop ≤ s.ids → prefilterHitsIn s needle first stop =
      (range' first (stop - first)).filter fun id => s.Live id ∧ needle <:+: s.foldedBytesOf id := by
    intro first stop bound
    rw [prefilterHitsIn_eq tidy.wf.laid nonempty bound]
    apply filter_congr
    intro id mem
    have below : id < s.ids := by
      have range := mem_range'_1.mp mem
      show (_ : Nat) < _
      omega
    rw [decide_eq_decide]
    constructor
    · rintro ⟨apart, held⟩
      exact ⟨Tidy.live_of_infix tidy apart nonempty below held, held⟩
    · rintro ⟨live, held⟩
      exact ⟨fun zero => names id live (held.subset zero), held⟩
  refine ⟨exact_, ?_⟩
  intro cuts ordered inside
  have low : (0 :: cuts).Pairwise (· ≤ ·) := pairwise_cons.mpr ⟨fun _ _ => Nat.zero_le _, ordered⟩
  have high : ∀ cut ∈ 0 :: cuts, cut ≤ s.ids := forall_mem_cons.mpr ⟨Nat.zero_le _, inside⟩
  have bounded : ∀ range ∈ rangesAt 0 s.ids cuts, range.2 ≤ s.ids := by
    intro range mem
    rcases mem_rangesAt mem with last | cut
    · exact last.le
    · exact inside _ cut
  rw [prefilterHits, exact_ 0 s.ids le_rfl, ← flatMap_rangesAt _ low high]
  apply flatMap_congr
  intro range mem
  exact exact_ range.1 range.2 (bounded range mem)

/-- Two names that hold `b`, and a dead one between them. -/
theorem sample_store_scanned :
    letI := Externals.ascii
    let s := (((new.intern [0x61, 0x62]).1.intern [0x62]).1.intern [0x62, 0x63]).1.release 1
    prefilterHitsIn s [0x62] 0 3 = [0, 2] ∧
      ((rangesAt 0 3 [1]).flatMap fun range => prefilterHitsIn s [0x62] range.1 range.2) = prefilterHits s [0x62] := by
  let _ := Externals.ascii
  intro s
  have reached : s.Reached := (((Reached.new.intern [0x61, 0x62]).intern [0x62]).intern [0x62, 0x63]).release (by decide +kernel)
  have ids : s.ids = 3 := by decide +kernel
  have few : ∀ id, s.Live id → id < 3 := by
    intro id live
    rw [← ids]
    exact reached.tidy.wf.live_lt id live
  have names : ∀ id, s.Live id → 0 ∉ s.foldedBytesOf id := by
    intro id live
    have all_ : ∀ id < 3, s.Live id → 0 ∉ s.foldedBytesOf id := by decide +kernel
    exact all_ id (few id live) live
  obtain ⟨hits, parts⟩ := arena_scan_finds_names reached names (show [0x62] ≠ [] by decide)
  have cut := parts [1] (by decide) (by rw [ids]; decide)
  rw [ids] at cut
  refine ⟨?_, cut⟩
  rw [hits 0 3 ids.ge]
  decide +kernel

end Goz.Query
