import Goz.Query.TopK

namespace Goz.Query

open Smallest VolumeIndex List Asking NameStore Externals PageRequest

variable {ix : VolumeIndex} {parsed : ParsedQuery} {compiled : CompiledQuery}
variable {ids : List NameId} {id : NameId} {matched : NameSet}

section Matched

variable [Externals]

/-- Whether a query over names takes a name: the search reaches it and its predicates hold. -/
def takes (ix : VolumeIndex) (parsed : ParsedQuery) (compiled : CompiledQuery) (id : NameId) : Bool :=
  match driver parsed compiled with
  | some needle => decide (0 ∉ needle ∧ needle <:+: ix.names.foldedBytesOf id) &&
      named ix parsed compiled compiled.prefilterDecidesName id
  | none => decide (ix.names.refcount id > 0) && named ix parsed compiled false id

def taken (ix : VolumeIndex) (parsed : ParsedQuery) (compiled : CompiledQuery) : List NameId :=
  (range ix.names.ids).filter (takes ix parsed compiled)

theorem nodup_taken (ix : VolumeIndex) (parsed : ParsedQuery) (compiled : CompiledQuery) :
    (taken ix parsed compiled).Nodup := nodup_range.filter _

omit [Externals] in
def own (ix : VolumeIndex) (id : NameId) : List EntryIdx := (ix.nameChain id).filter fun e => !ix.isSynthetic e

theorem live_of_takes (tidy : ix.names.Tidy) (nonempty : ∀ needle, driver parsed compiled = some needle → needle ≠ []) (below : id < ix.names.ids) (takes_ : takes ix parsed compiled id = true) : ix.names.Live id := by
  unfold takes at takes_
  split at takes_
  case h_1 needle driven =>
    simp only [Bool.and_eq_true, decide_eq_true_eq] at takes_
    obtain ⟨⟨apart, inside⟩, -⟩ := takes_
    by_contra dead
    obtain ⟨byte, first⟩ := exists_mem_of_ne_nil needle (nonempty needle driven)
    have zero := tidy.blanked id below dead byte (inside.subset first)
    exact apart (zero ▸ first)
  case h_2 =>
    simp only [Bool.and_eq_true, decide_eq_true_eq] at takes_
    exact takes_.1

variable (ix parsed compiled) in
theorem quiet_marks (found : ChunkMatch) (ids : List NameId) :
    ∃ watch, (ids.foldlM (mark ix parsed compiled) found).quiet =
      let due := (driver parsed compiled).isNone || !compiled.prefilterDecidesName
      let marked := ids.filter (named ix parsed compiled (!due))
      { watch := watch
        marked := found.marked ++ marked
        total := found.total + (marked.map (entriesBearing ix)).sum } := by
  rw [quiet_foldlM]
  induction ids generalizing found with
  | nil => exact ⟨found.watch, by simp⟩
  | cons id rest ih =>
    rw [foldl_cons]
    obtain ⟨watch, step⟩ := ih (mark ix parsed compiled found id).quiet
    refine ⟨watch, ?_⟩
    rw [step]
    unfold mark
    simp only [bind_pure_comp, quiet_map, quiet_verify]
    split
    case isTrue verified =>
      rw [filter_cons_of_pos verified]
      simp [Nat.add_assoc]
    case isFalse failed => rw [filter_cons_of_neg failed]

theorem quiet_matchChunk (ok : ix.Integrity) (nonempty : ∀ needle, driver parsed compiled = some needle → needle ≠ [])
    (per i : Nat) :
    let ids := chunkIds i per ix.names.ids
    let marked := (range' ids.1 (ids.2 - ids.1)).filter (takes ix parsed compiled)
    (matchChunk ix parsed compiled per i).quiet.marked = marked ∧
      (matchChunk ix parsed compiled per i).quiet.total = (marked.map (entriesBearing ix)).sum := by
  intro ids marked
  obtain ⟨watch, marks⟩ := quiet_marks ix parsed compiled
    { watch := .new, marked := [], total := 0 } (chunkNames ix parsed compiled ids)
  have same : (chunkNames ix parsed compiled ids).filter
      (named ix parsed compiled (!((driver parsed compiled).isNone || !compiled.prefilterDecidesName))) = marked := by
    unfold chunkNames
    cases driven : driver parsed compiled with
    | none =>
      rw [filter_filter]
      refine filter_congr fun id _ => ?_
      simp [takes, driven, Bool.and_comm]
    | some needle =>
      have hits : prefilterHitsIn ix.names needle ids.1 ids.2 = _ :=
        prefilterHitsIn_eq ok.names.laid (nonempty needle driven) (Nat.min_le_right _ _)
      show (prefilterHitsIn ix.names needle ids.1 ids.2).filter _ = _
      rw [hits, filter_filter]
      refine filter_congr fun id _ => ?_
      simp [takes, driven, Bool.and_comm]
  unfold matchChunk
  rw [marks]
  simp only [same]
  exact ⟨by simp, by simp⟩

theorem matchNames_eq (ok : ix.Integrity) (nonempty : ∀ needle, driver parsed compiled = some needle → needle ≠ []) {per : Nat}
    (pos : 0 < per) :
    let matched := matchNames ix ((matchChunks ix parsed compiled per).map quiet)
    matched.1.ids = taken ix parsed compiled ∧ matched.1.len = (taken ix parsed compiled).length ∧
      (∀ id, matched.1.contains id = true ↔ id ∈ taken ix parsed compiled) ∧
      matched.2 = ((taken ix parsed compiled).map (entriesBearing ix)).sum := by
  intro matched
  have chunks := flatMap_chunkIds pos ix.names.ids
  have parts := congrArg (filter (takes ix parsed compiled)) chunks
  rw [filter_flatMap] at parts
  have chunk (i : Nat) : (matchChunk ix parsed compiled per i).quiet.marked = _ ∧ _ = _ := quiet_matchChunk ok nonempty per i
  have contains : ∀ id, matched.1.contains id = true ↔ id ∈ taken ix parsed compiled := by
    intro id
    show (((matchChunks ix parsed compiled per).map quiet).any fun chunk => chunk.marked.contains id) = true ↔ _
    rw [taken, ← parts]
    simp only [matchChunks, map_map, any_map, any_eq_true, Function.comp_apply, contains_iff_mem,
      mem_flatMap, (chunk _).1]
  refine ⟨?_, ?_, contains, ?_⟩
  · show (range ix.names.ids).filter matched.1.contains = _
    refine filter_congr fun id inside => ?_
    have held := contains id
    rw [taken, mem_filter, and_iff_right inside] at held
    exact Bool.eq_iff_iff.mpr held
  · show (((matchChunks ix parsed compiled per).map quiet).map fun chunk => chunk.marked.length).sum = _
    rw [taken, ← parts, length_flatMap, matchChunks, map_map, map_map]
    refine congrArg List.sum (map_congr_left fun i _ => ?_)
    rw [Function.comp_apply, Function.comp_apply, (chunk i).1]
  · show (((matchChunks ix parsed compiled per).map quiet).map ChunkMatch.total).sum = _
    rw [taken, ← parts, map_flatMap, flatMap_def, sum_flatten, matchChunks, map_map,
      map_map, map_map]
    refine congrArg List.sum (map_congr_left fun i _ => ?_)
    exact (chunk i).2

end Matched

section Scan

variable [Externals] {mount : Bytes} {e : EntryIdx}

omit [Externals] in
theorem isNameLevel_iff {scope : Option EntryIdx} : isNameLevel ix parsed compiled scope = true ↔ scope = none ∧
    compiled.volumeAdmits = true ∧ testsPaths parsed compiled = false ∧
      (parsed.filters.kind = none ∧ parsed.filters.size = none ∧ parsed.filters.date = none) ∧ ix.mayHaveUnpresentable = false := by
  simp [isNameLevel, and_assoc]

theorem mayBearSynthetic_of_mem (ok : ix.Integrity) (labelled : ix.Labelled)
    (mem : e ∈ ix.nameChain id) (synthetic : ix.isSynthetic e = true) : nameMayBearSynthetic ix id = true := by
  obtain ⟨live, rfl⟩ := ((ok.nameChain id).2.1 e).mp mem
  have raw : ix.names.rawBytes (ix.entries.nameId e) = [] ∨ ix.names.rawBytes (ix.entries.nameId e) = lostFoundName ∨
      ix.names.rawBytes (ix.entries.nameId e) = placeholderName := by
    simp only [isSynthetic, Bool.or_eq_true, decide_eq_true_eq] at synthetic
    rcases synthetic with ((rfl | rfl) | held) | lost
    · exact .inl labelled.root
    · exact .inr (.inl labelled.lost)
    · exact .inr (.inr (labelled.held e live held))
    · obtain rfl := labelled.only e live lost
      exact .inr (.inl labelled.lost)
  rcases raw with none_ | lost | held
  · simp [nameMayBearSynthetic, none_]
  · simp [nameMayBearSynthetic, lost]
  · simp [nameMayBearSynthetic, held]

/-- Where synthetic entries bear only the names made for them, the count of the entries that bear a name leaves them out. -/
theorem entriesBearing_eq (ok : ix.Integrity)
    (apart : ∀ id, ∀ e ∈ ix.nameChain id, ix.isSynthetic e = true → nameMayBearSynthetic ix id = true) (id : NameId) :
    entriesBearing ix id = (own ix id).length := by
  unfold entriesBearing own
  split
  · rfl
  case isFalse plain =>
    rw [filter_eq_self.mpr, (ok.nameChain id).2.2]
    intro e mem
    cases synthetic : ix.isSynthetic e with
    | false => rfl
    | true => exact absurd (apart id e mem synthetic) plain

theorem compile_pathPiece_none (untested : testsPaths parsed (compile parsed mount) = false) :
    (compile parsed mount).pathPiece = none := by
  simp only [testsPaths, Bool.or_eq_false_iff, Bool.not_eq_false', List.isEmpty_iff] at untested
  obtain ⟨finders, wildcards⟩ := untested
  show (if parsed.matchCase then none else pathPiece parsed (if parsed.matchCase then mount else fold mount)) = none
  split
  · rfl
  case isFalse ignores =>
    rw [Bool.not_eq_true] at ignores
    have held : ∀ term ∈ parsed.pathTerms, term <:+: fold mount := by
      intro term mem
      have found := List.filter_eq_nil_iff.mp finders term mem
      simp only [ignores, Bool.false_eq_true, if_false, Option.isNone_iff_eq_none, Search.find_eq_none_iff, not_not] at found
      exact found
    rw [pathPiece]
    split
    · rfl
    refine List.foldlRecOn (motive := (· = none)) _ _ rfl fun best none_ piece mem => ?_
    rw [pieces, wildcards, List.flatMap_nil, List.append_nil, List.mem_flatMap] at mem
    obtain ⟨term, inTerms, inPieces⟩ := mem
    have inside := (Search.infix_of_mem_splitOnP inPieces).trans (held term inTerms)
    have found := mt Search.find_eq_none_iff.mp (not_not_intro inside)
    rw [considerPiece, if_neg (by simp [found]), none_]

theorem mem_own (ok : ix.Integrity) :
    e ∈ own ix id ↔ ix.Live e ∧ ix.entries.nameId e = id ∧ ix.isSynthetic e = false := by
  rw [own, mem_filter, (ok.nameChain id).2.1 e]
  simp [and_assoc]

theorem nodup_flatMap_own (ok : ix.Integrity) (nodup : ids.Nodup) : (ids.flatMap (own ix)).Nodup := by
  rw [nodup_flatMap]
  refine ⟨fun id _ => ((ok.nameChain id).1.nodup).filter _, nodup.imp fun differ e inA inB => ?_⟩
  exact differ (((mem_own ok).mp inA).2.1.symm.trans ((mem_own ok).mp inB).2.1)

omit [Externals] in
theorem candidatesOf_eq (bare : parsed.filters.kind = none ∧ parsed.filters.size = none ∧ parsed.filters.date = none)
    (entries : List EntryIdx) : candidatesOf ix parsed entries = (entries.filter fun e => !ix.isSynthetic e).map (⟨·, 0⟩) := by
  unfold candidatesOf columnsMatch
  simp [bare, kindMatches]

theorem scan_perm (ok : ix.Integrity) (level : isNameLevel ix parsed (compile parsed mount) none = true) :
    (scan ix parsed (compile parsed mount) none).quiet.Perm
      (((taken ix parsed (compile parsed mount)).flatMap (own ix)).map (⟨·, 0⟩)) := by
  obtain ⟨-, admits, untested, bare, plain⟩ := isNameLevel_iff.mp level
  have unwalked := compile_pathPiece_none untested
  have literal : ∀ needle, driver parsed (compile parsed mount) = some needle → needle ≠ [] := fun _ => driver_ne_nil
  set compiled := compile parsed mount
  unfold scan
  cases driven : driver parsed compiled with
  | some needle =>
    have part (ids : List NameId) :
        (ids.filter fun id => 0 ∉ needle ∧ needle <:+: ix.names.foldedBytesOf id).flatMap (nameCandidates ix parsed compiled) =
          ((ids.filter (takes ix parsed compiled)).flatMap (own ix)).map (⟨·, 0⟩) := by
      induction ids with
      | nil => rfl
      | cons id rest ih =>
        have reached : takes ix parsed compiled id = (decide (0 ∉ needle ∧ needle <:+: ix.names.foldedBytesOf id) &&
            named ix parsed compiled compiled.prefilterDecidesName id) := by
          simp only [takes, driven]
        rw [filter_cons, filter_cons, reached]
        cases decide (0 ∉ needle ∧ needle <:+: ix.names.foldedBytesOf id) with
        | false => simpa using ih
        | true =>
          simp only [if_true, Bool.true_and, flatMap_cons]
          rw [ih, nameCandidates, candidatesOf_eq bare, ← own]
          cases named ix parsed compiled compiled.prefilterDecidesName id <;> simp
    rw [quiet_scan_plain plain ok driven admits untested, prefilterHits,
      prefilterHitsIn_eq ok.names.laid (literal needle driven) le_rfl, Nat.sub_zero, ← range_eq_range', part]
    rfl
  | none =>
    unfold scanWith
    rw [quiet_ite, if_pos admits]
    unfold scanNames
    simp only [driven, unwalked, bind_pure_comp, quiet_map, scanAll]
    obtain ⟨watch, scanned⟩ : ∃ watch, (consultEach ix parsed compiled none false ix.entries.iterLive
        { memos := .new ix parsed compiled, watch := .new, candidates := [] }).quiet = _ :=
      quiet_consultEach_plain plain false _ (by simp [Memos.new, untested]) ix.entries.iterLive
    rw [scanned, nil_append, candidatesOf_eq bare]
    apply Perm.map
    refine (perm_ext_iff_of_nodup (((EntryTable.nodup_iterLive _).filter _).filter _)
      (nodup_flatMap_own ok (nodup_taken ix parsed compiled))).mpr fun e => ?_
    rw [mem_filter, mem_filter, EntryTable.mem_iterLive ok.slots, mem_flatMap]
    constructor
    · rintro ⟨⟨live, named_⟩, real⟩
      have held := ok.name_live live
      refine ⟨ix.entries.nameId e, ?_, (mem_own ok).mpr ⟨live, rfl, by simpa using real⟩⟩
      rw [taken, mem_filter, mem_range]
      exact ⟨ok.names.live_lt _ held, by simpa [takes, driven, named_, NameStore.Live] using held⟩
    · rintro ⟨id, inside, mem⟩
      obtain ⟨live, rfl, real⟩ := (mem_own ok).mp mem
      have reached := (mem_filter.mp inside).2
      simp only [takes, driven, Bool.and_eq_true] at reached
      exact ⟨⟨live, reached.2⟩, by simp [real]⟩

end Scan

section Rows

variable {dir : SortDir} {x y : EntryIdx}

def nameLe (ix : VolumeIndex) (dir : SortDir) (a b : NameId) : Bool :=
  if dir = .desc then ix.names.keyLe b a else ix.names.keyLe a b

theorem nameLe_linear (ix : VolumeIndex) (dir : SortDir) : Linear (nameLe ix dir) := by
  cases dir with
  | asc => exact keyLe_linear ix.names
  | desc => exact (keyLe_linear ix.names).flip

theorem directed_sort (ids : List NameId) : directed dir (ids.mergeSort ix.names.keyLe) = ids.mergeSort (nameLe ix dir) := by
  cases dir with
  | asc => rfl
  | desc => exact (keyLe_linear ix.names).reverse_sort ids

theorem directed_perm (ids : List NameId) : (directed dir ids).Perm ids := by
  cases dir with
  | asc => exact .refl _
  | desc => exact reverse_perm ids

theorem pairwise_directed (sorted : ids.Pairwise fun a b => ix.names.keyLe a b = true) :
    (directed dir ids).Pairwise fun a b => nameLe ix dir a b = true := by
  cases dir with
  | asc => exact sorted
  | desc => exact pairwise_reverse.mpr sorted

theorem filter_directed (p : NameId → Bool) (ids : List NameId) : (directed dir ids).filter p = directed dir (ids.filter p) := by
  cases dir with
  | asc => rfl
  | desc => exact filter_reverse

theorem nameBefore_eq {r w : NameId} (differ : r ≠ w) : (nameBefore ix w r == decide (dir = .desc)) = nameLe ix dir r w := by
  have linear := keyLe_linear ix.names
  have total := linear.total r w
  have apart := fun rw wr => differ (linear.antisymm r w rw wr)
  unfold nameBefore nameLe
  cases dir <;> cases rw : ix.names.keyLe r w <;> cases wr : ix.names.keyLe w r <;> simp_all

theorem namesInOrder_eq [Externals] (tidy : ix.names.Tidy) (set_ : matched.ids = ids)
    (nodup : ids.Nodup) (contains : ∀ id, matched.contains id = true ↔ id ∈ ids) (live : ∀ id ∈ ids, ix.names.Live id) :
    namesInOrder ix matched dir = ids.mergeSort (nameLe ix dir) := by
  have linear := nameLe_linear ix dir
  have ordered := tidy.ordered
  unfold namesInOrder
  split
  · rw [set_, directed_sort]
  · have disjoint := nodup_append.mp ordered.nodup
    have sorted : (ix.names.order.filter matched.contains).Pairwise fun a b => ix.names.keyLe a b = true := by
      refine (ordered.sorted.filter matched.contains).imp_of_mem fun inA inB le => le ?_ ?_
      · exact live _ ((contains _).mp (mem_filter.mp inA).2)
      · exact live _ ((contains _).mp (mem_filter.mp inB).2)
    rw [directed_sort, filter_directed, merge_congr (nameLe ix dir)]
    · rw [linear.merge_eq_sort (pairwise_directed sorted) (linear.sorted _)]
      apply linear.sort_congr
      refine ((directed_perm _).append (mergeSort_perm _ _)).trans ?_
      rw [← filter_append]
      refine (perm_ext_iff_of_nodup (ordered.nodup.filter _) nodup).mpr fun id => ?_
      rw [mem_filter, contains]
      exact ⟨And.right, fun inside => ⟨ordered.cover id (live id inside), inside⟩⟩
    · intro r inOrder w waits
      apply nameBefore_eq
      have first := (mem_filter.mp ((directed_perm _).mem_iff.mp inOrder)).1
      have second := (mem_filter.mp ((mergeSort_perm _ _).mem_iff.mp waits)).1
      exact disjoint.2.2 r first w second

def foldedLe (dir : SortDir) (x y : Bytes) : Prop := if dir = .desc then ¬ x < y else ¬ y < x

theorem foldedLe_antisymm (dir : SortDir) (x y : Bytes) (le : foldedLe dir x y) (ge : foldedLe dir y x) : x = y := by
  have both : ¬ x < y ∧ ¬ y < x := by
    cases dir with
    | asc => exact ⟨ge, le⟩
    | desc => exact ⟨le, ge⟩
  rcases Std.lt_trichotomy x y with lt | same | gt
  · exact absurd lt both.1
  · exact same
  · exact absurd gt both.2

theorem foldedLe_of_nameLe {a b : NameId} (le : nameLe ix dir a b = true) :
    foldedLe dir (ix.names.foldedBytesOf a) (ix.names.foldedBytesOf b) := by
  cases dir with
  | asc => exact not_lt_of_keyLe le
  | desc => exact not_lt_of_keyLe le

def rowOf (ix : VolumeIndex) (e : EntryIdx) : Candidate := ⟨e, ix.names.rankKey (ix.entries.nameId e)⟩

theorem cmpAscending_of_lt (ordered : ix.names.Ordered) (liveX : ix.names.Live (ix.entries.nameId x))
    (liveY : ix.names.Live (ix.entries.nameId y)) (lt : ix.foldedName x < ix.foldedName y) :
    cmpAscending ix (rowOf ix x) (rowOf ix y) = .lt := by
  have key : compare (rowOf ix x).key (rowOf ix y).key ≠ .gt := by
    rw [Ne, Nat.compare_eq_gt, Nat.not_lt]
    exact ordered.rankKey_le liveX liveY lt
  have name : compare (ix.foldedName (rowOf ix x).idx) (ix.foldedName (rowOf ix y).idx) = .lt := compare_bytes_of_lt lt
  unfold cmpAscending
  rw [name]
  cases order : compare (rowOf ix x).key (rowOf ix y).key with
  | lt => rfl
  | eq => rfl
  | gt => exact absurd order key

theorem cmpAscending_of_eq (ordered : ix.names.Ordered) (liveX : ix.names.Live (ix.entries.nameId x))
    (liveY : ix.names.Live (ix.entries.nameId y)) (same : ix.foldedName x = ix.foldedName y) :
    cmpAscending ix (rowOf ix x) (rowOf ix y) = compare x y := by
  have key : (rowOf ix x).key = (rowOf ix y).key := ordered.rankKey_eq liveX liveY same
  have name : ix.foldedName (rowOf ix x).idx = ix.foldedName (rowOf ix y).idx := same
  unfold cmpAscending
  rw [key, name, Std.compare_self, Std.compare_self]
  rfl

theorem candidateLe_asc (a b : Candidate) : candidateLe ix ⟨.name, .asc⟩ a b = (cmpAscending ix a b).isLE := rfl

theorem candidateLe_desc (a b : Candidate) : candidateLe ix ⟨.name, .desc⟩ a b = (cmpAscending ix b a).isLE := by
  have swap : cmpAscending ix b a = (cmpAscending ix a b).swap := Std.OrientedCmp.eq_swap
  rw [swap]
  rfl

theorem candidateLe_of_ne (ordered : ix.names.Ordered) (liveX : ix.names.Live (ix.entries.nameId x))
    (liveY : ix.names.Live (ix.entries.nameId y)) (differ : ix.foldedName x ≠ ix.foldedName y)
    (le : nameLe ix dir (ix.entries.nameId x) (ix.entries.nameId y) = true) :
    candidateLe ix ⟨.name, dir⟩ (rowOf ix x) (rowOf ix y) = true := by
  cases dir with
  | asc =>
    rcases keyLe_iff.mp le with lt | ⟨same, -⟩
    · rw [candidateLe_asc, cmpAscending_of_lt ordered liveX liveY lt]
      rfl
    · exact absurd same differ
  | desc =>
    rcases keyLe_iff.mp le with lt | ⟨same, -⟩
    · rw [candidateLe_desc, cmpAscending_of_lt ordered liveY liveX lt]
      rfl
    · exact absurd same.symm differ

theorem pairwise_groupEntries (ordered : ix.names.Ordered) {group : List NameId}
    (same : ∀ a ∈ group, ∀ b ∈ group, ix.names.foldedBytesOf a = ix.names.foldedBytesOf b)
    (held : ∀ id ∈ group, ∀ e ∈ own ix id, ix.entries.nameId e = id ∧ ix.names.Live id) :
    (groupEntries ix dir group).Pairwise fun x y => candidateLe ix ⟨.name, dir⟩ (rowOf ix x) (rowOf ix y) = true := by
  have pairs : ((group.flatMap (own ix)).mergeSort).Pairwise fun x y =>
      (cmpAscending ix (rowOf ix x) (rowOf ix y)).isLE = true := by
    have sorted : ((group.flatMap (own ix)).mergeSort).Pairwise (· ≤ ·) := pairwise_mergeSort' (· ≤ ·) _
    refine sorted.imp_of_mem fun {x y} inX inY le => ?_
    obtain ⟨a, inA, atA⟩ := mem_flatMap.mp ((mergeSort_perm _ _).mem_iff.mp inX)
    obtain ⟨b, inB, atB⟩ := mem_flatMap.mp ((mergeSort_perm _ _).mem_iff.mp inY)
    obtain ⟨rfl, liveA⟩ := held a inA x atA
    obtain ⟨rfl, liveB⟩ := held b inB y atB
    rw [cmpAscending_of_eq ordered liveA liveB (same _ inA _ inB)]
    exact Std.isLE_compare.mpr le
  cases dir with
  | asc => exact pairs
  | desc =>
    simp only [candidateLe_desc]
    exact pairwise_reverse.mpr pairs

theorem groupEntries_perm (group : List NameId) : (groupEntries ix dir group).Perm (group.flatMap (own ix)) := by
  have sorted := mergeSort_perm (group.flatMap (own ix)) (· ≤ ·)
  cases dir with
  | asc => exact sorted
  | desc => exact (reverse_perm _).trans sorted

def allRows (ix : VolumeIndex) (dir : SortDir) (names : List NameId) : List EntryIdx :=
  (names.splitBy fun a b => ix.names.foldedBytesOf a = ix.names.foldedBytesOf b).flatMap (groupEntries ix dir)

theorem sort_rows [Externals] (tidy : ix.names.Tidy) (ok : ix.Integrity) (ids : List NameId)
    (live : ∀ id ∈ ids, ix.names.Live id) :
    ((ids.flatMap (own ix)).map (rowOf ix)).mergeSort (candidateLe ix ⟨.name, dir⟩) =
      (allRows ix dir (ids.mergeSort (nameLe ix dir))).map (rowOf ix) := by
  have sorted := (nameLe_linear ix dir).sorted ids
  have perm := mergeSort_perm ids (nameLe ix dir)
  set names := ids.mergeSort (nameLe ix dir)
  have whole := flatten_splitBy (fun a b => ix.names.foldedBytesOf a = ix.names.foldedBytesOf b) names
  have apart := pairwise_splitBy (foldedLe_antisymm dir) (sorted.imp foldedLe_of_nameLe)
  have inside : ∀ group ∈ names.splitBy fun a b => ix.names.foldedBytesOf a = ix.names.foldedBytesOf b,
      ∀ id ∈ group, ix.names.Live id := by
    intro group inGroups id mem
    exact live id (perm.mem_iff.mp (whole ▸ mem_flatten.mpr ⟨group, inGroups, mem⟩))
  apply (candidate_linear ix ⟨.name, dir⟩).sort_eq
  · apply Perm.map
    refine (perm.symm.flatMap_right _).trans ?_
    nth_rewrite 1 [← whole]
    rw [← flatMap_id, flatMap_assoc]
    exact Perm.flatMap_left _ fun group _ => (groupEntries_perm group).symm
  · rw [← whole, pairwise_flatten] at sorted
    rw [pairwise_map, allRows, pairwise_flatMap]
    constructor
    · intro group inGroups
      refine pairwise_groupEntries tidy.ordered (fun a inA b inB => key_eq_of_mem_splitBy inGroups inA inB) ?_
      intro id mem e bears
      exact ⟨((mem_own ok).mp bears).2.1, inside group inGroups id mem⟩
    · refine (apart.and sorted.2).imp_of_mem fun {g h} inG inH both x inX y inY => ?_
      obtain ⟨a, inA, atA⟩ := mem_flatMap.mp ((groupEntries_perm g).mem_iff.mp inX)
      obtain ⟨b, inB, atB⟩ := mem_flatMap.mp ((groupEntries_perm h).mem_iff.mp inY)
      obtain ⟨-, rfl, -⟩ := (mem_own ok).mp atA
      obtain ⟨-, rfl, -⟩ := (mem_own ok).mp atB
      exact candidateLe_of_ne tidy.ordered (inside g inG _ inA) (inside h inH _ inB) (both.1 _ inA _ inB) (both.2 _ inA _ inB)

theorem take_groupRows (stop : Nat) (groups : List (List NameId)) (rows : List EntryIdx) :
    (groupRows ix dir stop groups rows).take stop = (rows ++ groups.flatMap (groupEntries ix dir)).take stop := by
  induction groups generalizing rows with
  | nil => simp [groupRows]
  | cons group rest ih =>
    rw [groupRows]
    split
    · rw [ih, flatMap_cons, append_assoc]
    case isFalse full => rw [take_append_of_le_length (by omega)]

end Rows

variable [Externals] {req : PageRequest} {per : Nat}

omit [Externals] in
theorem namesFilesSize_eq (pos : 0 < per) (bound : matched.bound = ix.names.ids) :
    namesFilesSize ix per matched = filesSize ix (matched.ids.flatMap (own ix)) := by
  have chunks := congrArg (filter matched.contains) (flatMap_chunkIds pos ix.names.ids)
  rw [filter_flatMap] at chunks
  rw [NameSet.ids, bound, ← chunks, flatMap_assoc, flatMap_def, ← foldl_filesSize, map_map]
  rfl

omit [Externals] in
def namesOutcome (ix : VolumeIndex) (req : PageRequest) (total : Nat) (ids : List NameId) : RefOutcome :=
  let rows := allRows ix req.sort.dir (ids.mergeSort (nameLe ix req.sort.dir))
  let page := pageBounds total req.offset req.limit
  { total := total
    refs := ((rows.take page.2).drop page.1).map fun e => ⟨e, ix.entries.frn e⟩
    totalSize := if req.sumSizes then some (filesSize ix (ids.flatMap (own ix))) else none }

variable (tidy : ix.names.Tidy)
include tidy

theorem scanPage_names (ok : ix.Integrity) (key : req.sort.key = .name)
    (level : isNameLevel ix req.parsed req.compiled none = true)
    (live : ∀ id ∈ taken ix req.parsed req.compiled, ix.names.Live id) :
    req.scanPage ix (scan ix req.parsed req.compiled none).quiet =
      namesOutcome ix req ((taken ix req.parsed req.compiled).flatMap (own ix)).length (taken ix req.parsed req.compiled) := by
  have perm : (scan ix req.parsed req.compiled none).quiet.Perm
      (((taken ix req.parsed req.compiled).flatMap (own ix)).map (⟨·, 0⟩)) := scan_perm ok level
  have entries : ((scan ix req.parsed req.compiled none).quiet.map Candidate.idx).Perm
      ((taken ix req.parsed req.compiled).flatMap (own ix)) := by
    simpa [Function.comp_def] using perm.map Candidate.idx
  have named_ : req.sort = ⟨.name, req.sort.dir⟩ := by rw [← key]
  have rowed : (keyed ix req.sort (scan ix req.parsed req.compiled none).quiet).Perm
      (((taken ix req.parsed req.compiled).flatMap (own ix)).map (rowOf ix)) := by
    rw [keyed, if_neg (by simp [key])]
    refine (perm.map _).trans ?_
    rw [map_map]
    refine Perm.of_eq (map_congr_left fun e _ => ?_)
    simp [rowOf, entryKey, key]
  unfold scanPage namesOutcome
  rw [perm.length_eq, length_map]
  set ids := taken ix req.parsed req.compiled
  set page := pageBounds (ids.flatMap (own ix)).length req.offset req.limit
  dsimp only
  congr 1
  · unfold rowsOf order orderTop
    split
    case isTrue none_ => rw [none_, take_zero, take_zero, drop_nil, drop_nil, map_nil, map_nil]
    case isFalse some_ =>
      rw [(candidate_linear ix req.sort).sort_congr rowed, named_, sort_rows tidy ok ids live, ← map_take, ← map_drop,
        map_map]
      rfl
  · rw [filesSize_perm entries]

theorem live_of_taken (req : PageRequest) : ∀ id ∈ taken ix req.parsed req.compiled, ix.names.Live id :=
  fun _ mem => live_of_takes tidy (fun _ => driver_ne_nil) (mem_range.mp (mem_filter.mp mem).1)
    (mem_filter.mp mem).2

theorem namesPage_eq (ok : ix.Integrity) (req : PageRequest) (pos : 0 < per) :
    req.namesPage ix per ((matchChunks ix req.parsed req.compiled per).map quiet) =
      namesOutcome ix req ((taken ix req.parsed req.compiled).map (entriesBearing ix)).sum (taken ix req.parsed req.compiled) := by
  have literal : ∀ needle, driver req.parsed req.compiled = some needle → needle ≠ [] := fun _ => driver_ne_nil
  obtain ⟨set_, -, contains, total⟩ := matchNames_eq ok literal pos
  unfold namesPage namesOutcome
  dsimp only
  rw [total, namesFilesSize_eq pos rfl, set_]
  congr 1
  unfold nameLevelRefs
  split
  case isTrue none_ =>
    rw [drop_of_length_le ((length_take_le _ _).trans none_), map_nil]
  case isFalse =>
    dsimp only
    rw [take_groupRows, namesInOrder_eq tidy set_ (nodup_taken ix req.parsed req.compiled) contains (live_of_taken tidy req)]
    rfl

theorem namesPage_eq_scanPage (ok : ix.Integrity) (key : req.sort.key = .name)
    (level : isNameLevel ix req.parsed req.compiled none = true) (pos : 0 < per)
    (bearing : ∀ id, entriesBearing ix id = (own ix id).length) :
    req.namesPage ix per ((matchChunks ix req.parsed req.compiled per).map quiet) =
      req.scanPage ix (scan ix req.parsed req.compiled none).quiet := by
  have total : ((taken ix req.parsed req.compiled).map (entriesBearing ix)).sum =
      ((taken ix req.parsed req.compiled).flatMap (own ix)).length := by
    rw [length_flatMap]
    exact congrArg List.sum (map_congr_left fun id _ => bearing id)
  rw [namesPage_eq tidy ok req pos, scanPage_names tidy ok key level (live_of_taken tidy req), total]

omit tidy

/-- Over runs that spare the root, a query over names gets the page that a scan of the entries gives, whichever way the names
    are split into chunks. -/
theorem name_level_equals_scan {rootFrn : Frn} (run : Undisturbed rootFrn ix) (req : PageRequest) (key : req.sort.key = .name)
    (level : isNameLevel ix req.parsed req.compiled (req.scopeIn ix) = true) (schedule : Schedule ix.names.ids per) :
    req.pageRefs ix schedule true = req.pageRefs ix schedule false := by
  have ok := run.reachable.invariant.integrity
  have unscoped : req.scopeIn ix = none := (isNameLevel_iff.mp level).1
  have fast : req.route ix true = .names := by simp [route, key, level]
  have slow : req.route ix false = .scan := by
    unfold route
    cases req.limit <;> rfl
  unfold pageRefs
  rw [fast, slow, unscoped]
  rw [unscoped] at level
  exact namesPage_eq_scanPage run.reachable.tidy ok key level schedule.pos fun id =>
    entriesBearing_eq ok (fun _ _ => mayBearSynthetic_of_mem ok run.labelled) id

def allByName (text : Bytes) : PageRequest where
  mount := []
  parsed := nameQuery text
  scope := none
  sort := ⟨.name, .asc⟩
  offset := 0
  limit := none
  sumSizes := true

omit [Externals] in
theorem folderIndex_by_name :
    letI := ascii
    isNameLevel folderIndex (allByName [0x61]).parsed (allByName [0x61]).compiled ((allByName [0x61]).scopeIn folderIndex) = true ∧
      (allByName [0x61]).pageRefs folderIndex oneChunk true = (allByName [0x61]).pageRefs folderIndex oneChunk false := by
  let _ := ascii
  have level : isNameLevel folderIndex (allByName [0x61]).parsed (allByName [0x61]).compiled
    ((allByName [0x61]).scopeIn folderIndex) = true := by decide
  exact ⟨level, name_level_equals_scan undisturbed_folderIndex (allByName [0x61]) rfl level oneChunk⟩

def upperRecord : ParsedUsnRecord where
  majorVersion := 2
  frn := ⟨0x0001000000000007⟩
  parentFrn := ntfsRootFrn
  usn := 0
  timestampFt := 0
  reason := 0
  attributes := fileAttributeDirectory
  name := [0x70]
  nameLossy := false

omit [Externals] in
/-- A record moves the root into a folder that a second record puts under the root. The cycle holds the root, where the
    search for cycles stops, and nothing is left under lost+found. -/
def loopedIndex : VolumeIndex :=
  letI := ascii
  ((new ntfsRootFrn (.sparse [])).insertEnum { rootRecord with parentFrn := upperRecord.frn }).insertEnum upperRecord

omit [Externals] in
def loopedChunk : Schedule loopedIndex.names.ids 1 where
  pos := Nat.one_pos
  buffers := [[0]]
  covers := by decide

omit [Externals] in
/-- The name the root was given has a reference, which is counted; the root itself is never a row. -/
theorem loopedIndex_counts_root :
    letI := ascii
    Reachable ntfsRootFrn loopedIndex ∧
      isNameLevel loopedIndex (allByName [0x2E]).parsed (allByName [0x2E]).compiled ((allByName [0x2E]).scopeIn loopedIndex) = true ∧
      ((allByName [0x2E]).pageRefs loopedIndex loopedChunk true).total = 1 ∧
      ((allByName [0x2E]).pageRefs loopedIndex loopedChunk false).total = 0 := by
  let _ := ascii
  refine ⟨?_, by decide, by decide +kernel, by decide +kernel⟩
  exact .step (.insertEnum upperRecord)
    (.step (.insertEnum { rootRecord with parentFrn := upperRecord.frn }) (.new fun _ => rfl) trivial) trivial

end Goz.Query
