import Goz.Daemon.Frames
import Goz.Query.PathTests
import Goz.Query.Resolve

namespace Goz.Daemon

open VolumeIndex Wtf8 Query List

variable {turn : List Nat} {page : Nat} {sort : SortSpec} {lane : Lane} {a b : Bytes}

section Prefixes

variable {mount : Bytes}

theorem compare_append_lt (before : compare a b = .lt) (apart : ¬ a <+: b) (x y : Bytes) :
    compare (a ++ x) (b ++ y) = .lt := by
  induction a generalizing b with
  | nil => exact absurd nil_prefix apart
  | cons c a ih =>
    cases b with
    | nil => simp at before
    | cons d b =>
      rw [List.compare_cons_cons, Ordering.then_eq_lt] at before
      rw [List.cons_append, List.cons_append, List.compare_cons_cons, Ordering.then_eq_lt]
      obtain less | ⟨same, rest⟩ := before
      · exact Or.inl less
      · obtain rfl := Std.LawfulEqCmp.eq_of_compare same
        exact Or.inr ⟨same, ih rest fun start => apart (prefix_cons_inj c |>.mpr start)⟩

variable [Externals]

theorem closed_of_fold (folds : FoldsComponents) (whole : WellFormed mount) (closed : [0x5C] <:+ fold mount) :
    ∃ stem, WellFormed stem ∧ mount = stem ++ [0x5C] := by
  have inside : (0x5C : UInt8) ∈ fold mount := closed.subset (mem_singleton_self _)
  have divided := (folds.separators mount whole 0x5C (by decide)).mp inside
  obtain ⟨last, stem, split, none_after⟩ := eq_append_cons_of_mem (mem_reverse.mpr divided)
  obtain rfl : mount = stem.reverse ++ 0x5C :: last.reverse := by
    rw [← reverse_reverse mount, split]
    simp
  obtain ⟨wholeStem, wholeLast⟩ := whole.split (by decide)
  have clean : (0x5C : UInt8) ∉ fold last.reverse := by
    rw [folds.separators last.reverse wholeLast 0x5C (by decide), mem_reverse]
    exact none_after
  have empty : fold last.reverse = [] := by
    by_contra some_
    rw [folds.splits _ _ wholeStem wholeLast] at closed
    have final : (fold last.reverse).getLast some_ = 0x5C := by
      obtain ⟨front, whole⟩ := closed
      have ends := congrArg List.getLast? whole
      rw [getLast?_append_of_ne_nil _ (by simp), getLast?_append_of_ne_nil _ (by simp), getLast?_cons_of_ne_nil some_,
        getLast?_eq_getLast_of_ne_nil some_] at ends
      simpa using ends.symm
    exact clean (final ▸ getLast_mem some_)
  have gone := folds.keeps _ wholeLast empty
  exact ⟨stem.reverse, wholeStem, by rw [gone]⟩

theorem fold_closed_append (folds : FoldsComponents) {rest : Bytes} (whole : WellFormed mount) (closed : [0x5C] <:+ fold mount)
    (wholeRest : WellFormed rest) : fold (mount ++ rest) = fold mount ++ fold rest := by
  obtain ⟨stem, wholeStem, rfl⟩ := closed_of_fold folds whole closed
  have alone : fold (stem ++ [0x5C]) = fold stem ++ [0x5C] := folds.splits stem [] wholeStem wellFormed_nil
  rw [append_assoc, singleton_append, folds.splits stem rest wholeStem wholeRest, alone, append_assoc, singleton_append]

variable {ix : VolumeIndex} {e : EntryIdx}

omit [Externals] in
theorem wellFormed_pushComponents (names : NamesWellFormed ix) {chain : List EntryIdx} (live : ∀ x ∈ chain, ix.Live x) {out : Bytes}
    (whole : WellFormed out) : WellFormed (chain.foldl ix.pushComponent out) := by
  induction chain generalizing out with
  | nil => exact whole
  | cons x rest ih =>
    obtain ⟨here, below⟩ := forall_mem_cons.mp live
    rw [foldl_cons, pushComponent_eq]
    split
    · exact ih below whole
    · exact ih below (wellFormed_joinPath whole (names x here))

theorem wellFormed_parentPath (ok : ix.Integrity) (names : NamesWellFormed ix) (live : ix.Live e) : WellFormed (ix.parentPath e) := by
  unfold VolumeIndex.parentPath
  cases up : ix.entries.parent e with
  | none => exact wellFormed_nil
  | some parent =>
    have above : ∀ x ∈ (ix.pathChain maxPathHops parent).reverse, ix.Live x := fun x mem =>
      pathChain_live ok maxPathHops (ok.parent_live e parent live up) x (mem_reverse.mp mem)
    simp only [pathOf]
    split_ifs
    · exact wellFormed_nil
    · exact wellFormed_nil
    all_goals exact wellFormed_pushComponents names above wellFormed_nil

theorem pathKey_closed (folds : FoldsComponents) (whole : WellFormed mount) (closed : [0x5C] <:+ fold mount)
    (path : WellFormed (ix.parentPath e)) : fold mount <+: pathKey ix mount e := by
  rw [pathKey, fold_closed_append folds whole closed path, append_assoc, append_assoc]
  exact prefix_append _ _

end Prefixes

section Turns

variable [Externals] {mounts : List Bytes} {dir : SortDir}

def precedes (dir : SortDir) (a b : Bytes) : Prop := if dir = .desc then compare b a = .lt else compare a b = .lt

omit [Externals] in
theorem precedes_append (before : precedes dir a b) (left : ¬ a <+: b) (right : ¬ b <+: a) (x y : Bytes) :
    precedes dir (a ++ x) (b ++ y) := by
  unfold precedes at before ⊢
  split
  case isTrue desc =>
    rw [if_pos desc] at before
    exact compare_append_lt before right y x
  case isFalse asc =>
    rw [if_neg asc] at before
    exact compare_append_lt before left x y

omit [Externals] in
theorem precedes_asymm (before : precedes dir a b) : ¬ precedes dir b a := by
  unfold precedes at before ⊢
  split at before <;> simp_all [Std.OrientedOrd.eq_swap (a := a)]

theorem volumesInTurn_eq (found : volumesInTurn mounts dir = some turn) :
    (∀ (a : Nat) mount, mounts[a]? = some mount → [0x5C] <:+ fold mount) ∧
      (∀ (a b : Nat) left right, mounts[a]? = some left → mounts[b]? = some right → a ≠ b → ¬ fold left <+: fold right) ∧
      let order := ((mounts.map fold).zipIdx.insertionSort fun a b => (compare a.1 b.1).isLE).map (·.2)
      turn = if dir = .desc then order.reverse else order := by
  simp only [volumesInTurn] at found
  split at found
  case isTrue => cases found
  case isFalse free =>
    have place : ∀ (a : Nat) mount, mounts[a]? = some mount → (fold mount, a) ∈ (mounts.map fold).zipIdx := by
      intro a mount at_
      rw [mem_zipIdx_iff_getElem?, getElem?_map, at_]
      rfl
    simp only [any_eq_true, Bool.or_eq_true, not_exists, not_and, not_or] at free
    refine ⟨?_, ?_, (Option.some.inj found).symm⟩
    · intro a mount at_
      have closed := (free _ (place a mount at_)).1
      simpa [isSuffixOf_iff_suffix] using closed
    · intro a b left right atA atB apart start
      apply (free _ (place a left atA)).2 _ (place b right atB)
      simpa [apart] using isPrefixOf_iff_prefix.mpr start

theorem volumesInTurn_pairwise (found : volumesInTurn mounts dir = some turn) :
    turn.Pairwise fun a b => ∀ left right, mounts[a]? = some left → mounts[b]? = some right → precedes dir (fold left) (fold right) := by
  obtain ⟨-, apart, turn_eq⟩ := volumesInTurn_eq found
  set sorted := (mounts.map fold).zipIdx.insertionSort fun a b => (compare a.1 b.1).isLE with sorted_eq
  have perm : sorted.Perm (mounts.map fold).zipIdx := perm_insertionSort _ _
  have ascending : sorted.Pairwise fun p q => (compare p.1 q.1).isLE = true := by
    have total : Std.Total fun p q : Bytes × Nat => (compare p.1 q.1).isLE = true := by
      constructor
      intro p q
      rw [Std.OrientedOrd.eq_swap (a := q.1)]
      cases compare p.1 q.1 <;> simp
    have trans : IsTrans (Bytes × Nat) fun p q => (compare p.1 q.1).isLE = true := ⟨fun _ _ _ => Std.TransCmp.isLE_trans⟩
    exact pairwise_insertionSort _ _
  have distinct : (sorted.map (·.2)).Nodup := by
    apply (perm.map _).nodup_iff.mpr
    rw [zipIdx_map_snd]
    exact nodup_range'
  have order : (sorted.map (·.2)).Pairwise fun a b => ∀ left right, mounts[a]? = some left → mounts[b]? = some right →
      compare (fold left) (fold right) = .lt := by
    rw [Nodup, pairwise_map] at distinct
    rw [pairwise_map]
    apply (ascending.and distinct).imp_of_mem
    rintro ⟨foldedA, a⟩ ⟨foldedB, b⟩ memberA memberB ⟨le, differ⟩ left right atA atB
    have textA : fold left = foldedA := by simpa [mem_zipIdx_iff_getElem?, atA] using perm.mem_iff.mp memberA
    have textB : fold right = foldedB := by simpa [mem_zipIdx_iff_getElem?, atB] using perm.mem_iff.mp memberB
    subst textA textB
    cases same : compare (fold left) (fold right) with
    | lt => rfl
    | eq =>
      have start : fold left <+: fold right := by rw [Std.LawfulEqCmp.eq_of_compare same]
      exact absurd start (apart a b left right atA atB differ)
    | gt => simp [same] at le
  cases dir with
  | asc => simpa [turn_eq, precedes] using order
  | desc =>
    simp only [turn_eq, precedes, if_true, pairwise_reverse]
    exact order.imp fun before left right atB atA => before right left atA atB

end Turns

section Lanes

variable [Externals] {a b : Lane}

/-- A lane whose index and names are sound, and whose key, if one is kept from an earlier page, is of its own volume. -/
structure Lane.Readable (page : Nat) (lane : Lane) : Prop where
  mount : WellFormed lane.vol.mountPrefix
  sound : (lane.guard page).Integrity
  names : NamesWellFormed (lane.guard page)
  key : ∀ key, lane.run.headKey = some key →
    ∃ (index : VolumeIndex) (idx : EntryIdx), WellFormed (index.parentPath idx) ∧ key = pathKey index lane.vol.mountPrefix idx

def Lane.Heads (page : Nat) (lane : Lane) : Prop := ∃ h, lane.run.head = some h ∧ (lane.guard page).Live h.idx

@[simp] theorem head_ensureHeadKey (lane : Lane) : (lane.ensureHeadKey page).run.head = lane.run.head := by
  simp only [Lane.ensureHeadKey, Run.ensureHeadKey]
  split <;> rfl

@[simp] theorem vol_ensureHeadKey (lane : Lane) : (lane.ensureHeadKey page).vol = lane.vol := rfl

theorem headKey_ensureHeadKey (folds : FoldsComponents) (readable : lane.Readable page) (closed : [0x5C] <:+ fold lane.vol.mountPrefix)
    (heads : lane.Heads page) : ∃ rest, (lane.ensureHeadKey page).run.headKey = some (fold lane.vol.mountPrefix ++ rest) := by
  obtain ⟨h, head, live⟩ := heads
  have started : ∃ key, (lane.ensureHeadKey page).run.headKey = some key ∧ fold lane.vol.mountPrefix <+: key := by
    cases kept : lane.run.headKey with
    | none =>
      have path := wellFormed_parentPath readable.sound readable.names live
      refine ⟨_, ?_, pathKey_closed folds readable.mount closed path⟩
      simp only [Lane.ensureHeadKey, Run.ensureHeadKey, kept, head]
    | some key =>
      obtain ⟨index, idx, path, rfl⟩ := readable.key key kept
      refine ⟨_, ?_, pathKey_closed folds readable.mount closed path⟩
      simp only [Lane.ensureHeadKey, Run.ensureHeadKey, kept]
  obtain ⟨key, found, rest, rfl⟩ := started
  exact ⟨rest, found⟩

omit [Externals] in
theorem cmpHeads_path (byPath : sort.key = .path) {keyA keyB : Bytes} (headsA : a.run.head.isSome) (headsB : b.run.head.isSome)
    (keyedA : a.run.headKey = some keyA) (keyedB : b.run.headKey = some keyB) :
    cmpHeads sort page a b = .lt ↔ precedes sort.dir keyA keyB := by
  obtain ⟨ha, headA⟩ := Option.isSome_iff_exists.mp headsA
  obtain ⟨hb, headB⟩ := Option.isSome_iff_exists.mp headsB
  have base : compare (some keyA) (some keyB) = compare keyA keyB := rfl
  simp only [cmpHeads, headA, headB, byPath, keyedA, keyedB, base, precedes]
  split
  · rw [← Std.OrientedOrd.eq_swap]
  · rfl

theorem cmpHeads_inTurn (folds : FoldsComponents) (byPath : sort.key = .path) (readableA : a.Readable page) (readableB : b.Readable page)
    (closedA : [0x5C] <:+ fold a.vol.mountPrefix) (closedB : [0x5C] <:+ fold b.vol.mountPrefix)
    (before : precedes sort.dir (fold a.vol.mountPrefix) (fold b.vol.mountPrefix))
    (left : ¬ fold a.vol.mountPrefix <+: fold b.vol.mountPrefix) (right : ¬ fold b.vol.mountPrefix <+: fold a.vol.mountPrefix)
    (headsA : a.Heads page) (headsB : b.Heads page) :
    cmpHeads sort page (a.ensureHeadKey page) (b.ensureHeadKey page) = .lt ∧
      cmpHeads sort page (b.ensureHeadKey page) (a.ensureHeadKey page) ≠ .lt := by
  obtain ⟨restA, keyA⟩ := headKey_ensureHeadKey folds readableA closedA headsA
  obtain ⟨restB, keyB⟩ := headKey_ensureHeadKey folds readableB closedB headsB
  obtain ⟨ha, headA, -⟩ := headsA
  obtain ⟨hb, headB, -⟩ := headsB
  have order := precedes_append before left right restA restB
  rw [ne_eq, cmpHeads_path byPath (by simp [headA]) (by simp [headB]) keyA keyB,
    cmpHeads_path byPath (by simp [headB]) (by simp [headA]) keyB keyA]
  exact ⟨order, precedes_asymm order⟩

end Lanes

variable [Externals] {lanes keyed : List Lane}

def HeadsInTurn (sort : SortSpec) (page : Nat) (lanes : List Lane) (turn : List Nat) : Prop :=
  turn.Pairwise fun a b => ∀ left right, lanes[a]? = some left → lanes[b]? = some right → left.Heads page → right.Heads page →
    cmpHeads sort page (left.ensureHeadKey page) (right.ensureHeadKey page) = .lt ∧
      cmpHeads sort page (right.ensureHeadKey page) (left.ensureHeadKey page) ≠ .lt

theorem headsInTurn (folds : FoldsComponents) (byPath : sort.key = .path)
    (found : volumesInTurn (lanes.map (·.vol.mountPrefix)) sort.dir = some turn) (readable : ∀ lane ∈ lanes, lane.Readable page) :
    HeadsInTurn sort page lanes turn := by
  obtain ⟨closed, apart, -⟩ := volumesInTurn_eq found
  have distinct : turn.Nodup := (volumesInTurn_perm found).nodup_iff.mpr nodup_range
  apply ((volumesInTurn_pairwise found).and distinct).imp
  rintro a b ⟨before, differ⟩ left right atA atB headsA headsB
  have mountA : (lanes.map (·.vol.mountPrefix))[a]? = some left.vol.mountPrefix := by rw [getElem?_map, atA]; rfl
  have mountB : (lanes.map (·.vol.mountPrefix))[b]? = some right.vol.mountPrefix := by rw [getElem?_map, atB]; rfl
  exact cmpHeads_inTurn folds byPath (readable left (mem_of_getElem? atA)) (readable right (mem_of_getElem? atB))
    (closed a _ mountA) (closed b _ mountB) (before _ _ mountA mountB) (apart a b _ _ mountA mountB differ)
    (apart b a _ _ mountB mountA differ.symm) headsA headsB

structure Keyings (page : Nat) (lanes keyed : List Lane) : Prop where
  length : keyed.length = lanes.length
  lane : ∀ (r : Nat) lane, lanes[r]? = some lane → keyed[r]? = some lane ∨ keyed[r]? = some (lane.ensureHeadKey page)

/-- Of the first `k` runs, the one that comes first in the turn among those with a head. -/
def FirstIn (lanes : List Lane) (turn : List Nat) (k : Nat) : Option Nat → Prop
  | none => ∀ r < k, ¬ (lanes[r]?.bind (·.run.head)).isSome
  | some b => b < k ∧ (lanes[b]?.bind (·.run.head)).isSome ∧
    ∀ r < k, (lanes[r]?.bind (·.run.head)).isSome → r ≠ b → turn.idxOf b < turn.idxOf r

theorem ensureHeadKey_idem (lane : Lane) : (lane.ensureHeadKey page).ensureHeadKey page = lane.ensureHeadKey page := by
  unfold Lane.ensureHeadKey Run.ensureHeadKey
  cases kept : lane.run.headKey <;> cases head : lane.run.head <;> simp [kept, head]

variable (keyings : Keyings page lanes keyed)
include keyings

theorem Keyings.modify (i : Nat) : Keyings page lanes (keyed.modify i (·.ensureHeadKey page)) := by
  refine ⟨by rw [length_modify, keyings.length], ?_⟩
  intro r lane at_
  rw [getElem?_modify]
  obtain same | built := keyings.lane r lane at_
  · rw [same]
    by_cases here : i = r
    · exact Or.inr (by simp [here])
    · exact Or.inl (by simp [here])
  · rw [built]
    by_cases here : i = r
    · exact Or.inr (by simp [here, ensureHeadKey_idem])
    · exact Or.inr (by simp [here])

theorem Keyings.modified {i : Nat} (at_ : lanes[i]? = some lane) :
    (keyed.modify i (·.ensureHeadKey page))[i]? = some (lane.ensureHeadKey page) := by
  rw [getElem?_modify_eq]
  obtain same | built := keyings.lane i lane at_
  · rw [same]; rfl
  · rw [built, Option.map_eq_map, Option.map_some, ensureHeadKey_idem]

theorem Keyings.head (r : Nat) : keyed[r]?.bind (·.run.head) = lanes[r]?.bind (·.run.head) := by
  cases at_ : lanes[r]? with
  | none =>
    have outside : keyed[r]? = none := by
      rw [getElem?_eq_none_iff] at at_ ⊢
      rw [keyings.length]
      exact at_
    rw [outside]
  | some lane =>
    obtain same | built := keyings.lane r lane at_
    · rw [same]
    · rw [built]
      exact head_ensureHeadKey lane

omit keyings

omit [Externals] in
theorem of_idxOf_lt {relation : Nat → Nat → Prop} (ordered : turn.Pairwise relation) {a b : Nat} (inside : b ∈ turn)
    (before : turn.idxOf a < turn.idxOf b) : relation a b := by
  have placeB := idxOf_lt_length_of_mem inside
  have related := pairwise_iff_getElem.mp ordered _ _ (before.trans placeB) placeB before
  rwa [getElem_idxOf, getElem_idxOf] at related

section Firsts

omit [Externals]

variable {k b : Nat} {best : Option Nat}

theorem FirstIn.skip (sofar : FirstIn lanes turn k best) (headless : ¬ (lanes[k]?.bind (·.run.head)).isSome) :
    FirstIn lanes turn (k + 1) best := by
  cases best with
  | none =>
    intro r within
    obtain earlier | rfl := Nat.lt_succ_iff_lt_or_eq.mp within
    · exact sofar r earlier
    · exact headless
  | some b =>
    obtain ⟨inside, has, least⟩ := sofar
    refine ⟨by omega, has, ?_⟩
    intro r within hasR apart
    obtain earlier | rfl := Nat.lt_succ_iff_lt_or_eq.mp within
    · exact least r earlier hasR apart
    · exact absurd hasR headless

theorem FirstIn.take (sofar : FirstIn lanes turn k best) (has : (lanes[k]?.bind (·.run.head)).isSome)
    (before : ∀ b, best = some b → turn.idxOf k < turn.idxOf b) : FirstIn lanes turn (k + 1) (some k) := by
  refine ⟨Nat.lt_succ_self k, has, ?_⟩
  intro r within hasR apart
  have earlier : r < k := by omega
  cases best with
  | none => exact absurd hasR (sofar r earlier)
  | some b =>
    obtain ⟨-, -, least⟩ := sofar
    by_cases same : r = b
    · rw [same]
      exact before b rfl
    · exact (before b rfl).trans (least r earlier hasR same)

theorem FirstIn.keep (sofar : FirstIn lanes turn k (some b)) (after : turn.idxOf b < turn.idxOf k) :
    FirstIn lanes turn (k + 1) (some b) := by
  obtain ⟨inside, has, least⟩ := sofar
  refine ⟨by omega, has, ?_⟩
  intro r within hasR apart
  obtain earlier | rfl := Nat.lt_succ_iff_lt_or_eq.mp within
  · exact least r earlier hasR apart
  · exact after

theorem FirstIn.unique {other : Option Nat} (one : FirstIn lanes turn k best) (two : FirstIn lanes turn k other) : best = other := by
  cases best with
  | none =>
    cases other with
    | none => rfl
    | some c => exact absurd two.2.1 (one c two.1)
  | some b =>
    cases other with
    | none => exact absurd one.2.1 (two b one.1)
    | some c =>
      by_contra apart
      have differ : b ≠ c := fun same => apart (congrArg some same)
      have left := one.2.2 c two.1 two.2.1 differ.symm
      have right := two.2.2 b one.1 one.2.1 differ
      omega

theorem firstIn_find (perm : turn.Perm (range lanes.length)) :
    FirstIn lanes turn lanes.length (turn.find? fun ri => (lanes[ri]?.bind (·.run.head)).isSome) := by
  have mem : ∀ r, r ∈ turn ↔ r < lanes.length := fun r => perm.mem_iff.trans mem_range
  cases best : turn.find? fun ri => (lanes[ri]?.bind (·.run.head)).isSome with
  | none =>
    intro r run
    exact find?_eq_none.mp best r ((mem r).mpr run)
  | some b =>
    obtain ⟨has, before, after, split, skipped⟩ := find?_eq_some_iff_append.mp best
    refine ⟨(mem b).mp (by simp [split]), has, ?_⟩
    intro r run hasR apart
    have out : ∀ x, (lanes[x]?.bind (·.run.head)).isSome → x ∉ before := by
      intro x hasX inside
      have headless := skipped x inside
      simp [hasX] at headless
    rw [split, idxOf_append_of_notMem (out b has), idxOf_append_of_notMem (out r hasR), idxOf_cons_self,
      idxOf_cons_ne _ apart.symm]
    omega

end Firsts

theorem Keyings.pickBest (keyings : Keyings page lanes keyed) (inTurn : HeadsInTurn sort page lanes turn) (byPath : sort.key = .path)
    (perm : turn.Perm (range lanes.length)) (live : ∀ lane ∈ lanes, lane.run.head.isSome → lane.Heads page) {k : Nat}
    (run : k < lanes.length) {best : Option Nat} (sofar : FirstIn lanes turn k best) :
    Keyings page lanes (pickBest sort page (keyed, best) k).1 ∧ FirstIn lanes turn (k + 1) (pickBest sort page (keyed, best) k).2 := by
  have mem : ∀ r, r < lanes.length → r ∈ turn := fun r run => perm.mem_iff.mpr (mem_range.mpr run)
  unfold Daemon.pickBest
  rw [keyings.head k]
  by_cases has : (lanes[k]?.bind (·.run.head)).isSome
  · rw [if_neg (by simp [Option.isNone_iff_eq_none, Option.isSome_iff_ne_none.mp has])]
    cases best with
    | none => exact ⟨keyings, sofar.take has nofun⟩
    | some b =>
      have within : b < lanes.length := sofar.1.trans run
      have atK := getElem?_eq_getElem run
      have atB := getElem?_eq_getElem within
      have headsK : (lanes[k]).Heads page := live _ (getElem_mem run) (by simpa [atK] using has)
      have headsB : (lanes[b]).Heads page := live _ (getElem_mem within) (by simpa [atB] using sofar.2.1)
      have built := (keyings.modify k).modify b
      have keyB := (keyings.modify k).modified atB
      have keyK : ((keyed.modify k (·.ensureHeadKey page)).modify b (·.ensureHeadKey page))[k]? = some ((lanes[k]).ensureHeadKey page) := by
        rw [getElem?_modify_ne _ _ (Nat.ne_of_lt sofar.1)]
        exact keyings.modified atK
      simp only [byPath, if_true, keyK, keyB]
      have differ : turn.idxOf k ≠ turn.idxOf b := by
        intro same
        exact absurd ((idxOf_inj (mem k run)).mp same) (Nat.ne_of_gt sofar.1)
      obtain earlier | later := Nat.lt_or_gt_of_ne differ
      · have order := (of_idxOf_lt inTurn (mem b within) earlier) _ _ atK atB headsK headsB
        rw [if_pos order.1]
        refine ⟨built, sofar.take has ?_⟩
        rintro _ ⟨⟩
        exact earlier
      · have order := (of_idxOf_lt inTurn (mem k run) later) _ _ atB atK headsB headsK
        rw [if_neg order.2]
        exact ⟨built, sofar.keep later⟩
  · rw [if_pos (by simpa using has)]
    exact ⟨keyings, sofar.skip has⟩

theorem Lane.Readable.stepPast (readable : lane.Readable page) : (lane.stepPast page).Readable page := by
  refine { readable with key := ?_ }
  intro key kept
  obtain ⟨-, -, -, dropped⟩ := takeHead_iterate (lane.vanishedHeads page) lane.run
  by_cases none_gone : lane.vanishedHeads page = 0
  · have same : (lane.stepPast page).run = lane.run := by simp [Lane.stepPast, none_gone]
    rw [same] at kept
    exact readable.key key kept
  · have lost : (lane.stepPast page).run.headKey = none := dropped none_gone
    rw [lost] at kept
    cases kept

omit [Externals] in
theorem heads_stepPast (has : (lane.stepPast page).run.head.isSome) : (lane.stepPast page).Heads page := by
  obtain ⟨h, head⟩ := Option.isSome_iff_exists.mp has
  refine ⟨h, head, ?_⟩
  obtain ⟨refs, pos, -, -⟩ := takeHead_iterate (lane.vanishedHeads page) lane.run
  have found : lane.run.refs[lane.run.pos + lane.vanishedHeads page]? = some h := by
    rw [← refs, ← pos]
    exact head
  have there := vanished_steppedTo found
  simp only [vanished, entryIfFrn, Option.isNone_eq_false_iff] at there
  split at there
  · cases there
  · rename_i inside
    simp only [Bool.or_eq_true, decide_eq_true_eq, not_or, Bool.not_eq_true] at inside
    exact inside.2

theorem search_firstIn {s : Heads} (inTurn : HeadsInTurn sort page s.lanes turn) (byPath : sort.key = .path)
    (perm : turn.Perm (range s.lanes.length)) (live : ∀ lane ∈ s.lanes, lane.run.head.isSome → lane.Heads page) (k : Nat)
    (run : k ≤ s.lanes.length) :
    Keyings page s.lanes ((range k).foldl (pickBest sort page) (s.lanes, none)).1 ∧
      FirstIn s.lanes turn k ((range k).foldl (pickBest sort page) (s.lanes, none)).2 := by
  induction k with
  | zero => exact ⟨⟨rfl, fun r lane at_ => Or.inl at_⟩, fun r within => absurd within (Nat.not_lt_zero r)⟩
  | succ k ih =>
    obtain ⟨keyings, sofar⟩ := ih (by omega)
    rw [range_succ, foldl_append]
    exact keyings.pickBest inTurn byPath perm live run sofar

/-- Where the volumes have an order to be taken in, it is the order of their heads under a path sort, so taking them in
    turn picks the run that comparing the heads picks. -/
theorem turns_compare_heads (folds : FoldsComponents) {s : Heads} (byPath : sort.key = .path)
    (found : volumesInTurn (s.lanes.map (·.vol.mountPrefix)) sort.dir = some turn) (readable : ∀ lane ∈ s.lanes, lane.Readable page) :
    (turn.Pairwise fun a b => ∀ left right, s.lanes[a]? = some left → s.lanes[b]? = some right → left.Heads page → right.Heads page →
      cmpHeads sort page (left.ensureHeadKey page) (right.ensureHeadKey page) = .lt) ∧
    (nextHead sort (some turn) page s).2 = (nextHead sort none page s).2 := by
  constructor
  · apply (headsInTurn folds byPath found readable).imp
    intro a b ordered left right atA atB headsA headsB
    exact (ordered left right atA atB headsA headsB).1
  · have stepped : (s.stepPast page).lanes.map (·.vol.mountPrefix) = s.lanes.map (·.vol.mountPrefix) := by
      simp [Heads.stepPast, Lane.stepPast]
    have perm : turn.Perm (range (s.stepPast page).lanes.length) := by
      have all := volumesInTurn_perm found
      rwa [← stepped, length_map] at all
    rw [← stepped] at found
    have ready : ∀ lane ∈ (s.stepPast page).lanes, lane.Readable page := by
      intro lane mem
      obtain ⟨before, inside, rfl⟩ := mem_map.mp mem
      exact (readable before inside).stepPast
    have live : ∀ lane ∈ (s.stepPast page).lanes, lane.run.head.isSome → lane.Heads page := by
      intro lane mem has
      obtain ⟨before, -, rfl⟩ := mem_map.mp mem
      exact heads_stepPast has
    obtain ⟨-, searched⟩ := search_firstIn (headsInTurn folds byPath found ready) byPath perm live _ (Nat.le_refl _)
    exact (firstIn_find perm).unique searched

omit [Externals] in
def driveHeads : Heads where
  lanes := [⟨{ quietDrive with mountPrefix := [0x44, 0x3A, 0x5C] }, { refs := quietDrive.hits }⟩, ⟨quietDrive, { refs := quietDrive.hits }⟩]
  consumed := 0

omit [Externals] in
theorem driveHeads_in_turn : letI := Externals.ascii
    volumesInTurn (driveHeads.lanes.map (·.vol.mountPrefix)) .asc = some [1, 0] ∧
      (nextHead ⟨.path, .asc⟩ (some [1, 0]) 0 driveHeads).2 = (nextHead ⟨.path, .asc⟩ none 0 driveHeads).2 := by
  let _ := Externals.ascii
  have found : volumesInTurn (driveHeads.lanes.map (·.vol.mountPrefix)) .asc = some [1, 0] := by decide +kernel
  have ok := reachable_folderIndex.invariant.integrity
  have names : NamesWellFormed folderIndex := wellFormed_of_small ok rfl (by decide +kernel)
  have readable : ∀ lane ∈ driveHeads.lanes, lane.Readable 0 := by
    intro lane mem
    obtain rfl | rfl : lane = _ ∨ lane = _ := by simpa [driveHeads] using mem
    · exact ⟨wellFormed_ascii (by decide +kernel), ok, names, nofun⟩
    · exact ⟨wellFormed_ascii (by decide +kernel), ok, names, nofun⟩
  exact ⟨found, (turns_compare_heads foldsComponents_ascii rfl found readable).2⟩

end Goz.Daemon
