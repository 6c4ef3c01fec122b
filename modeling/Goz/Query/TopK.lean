import Goz.Query.Pages

namespace Goz.Query

open Smallest VolumeIndex List Asking Externals PageRequest Candidate

variable {per limit want : Nat} {ix : VolumeIndex} {sort : SortSpec} {parsed : ParsedQuery} {compiled : CompiledQuery}
variable {sumSizes : Bool} {req : PageRequest}
variable {needle : Bytes}

section Order

variable (ix : VolumeIndex) (sort : SortSpec)

theorem cmpAscending_eq : cmpAscending ix =
    compareLex (compareLex (compareOn key) (compareOn fun c => ix.foldedName c.idx)) (compareOn idx) :=
  rfl

instance : Std.TransCmp (cmpAscending ix) := by
  rw [cmpAscending_eq]
  infer_instance

instance : Std.TransCmp (cmpCandidate ix sort) := by
  unfold cmpCandidate
  cases sort.dir with
  | asc => simpa using inferInstanceAs (Std.TransCmp (cmpAscending ix))
  | desc =>
    have swapped : (fun a b => (cmpAscending ix a b).swap) = fun a b => cmpAscending ix b a := by
      funext a b
      exact Std.OrientedCmp.eq_swap.symm
    simp only [if_true, swapped]
    exact Std.TransCmp.opposite

variable {ix sort}

theorem eq_of_cmpAscending {a b : Candidate} (tie : cmpAscending ix a b = .eq) : a = b := by
  rw [cmpAscending, Ordering.then_eq_eq, Ordering.then_eq_eq] at tie
  obtain ⟨⟨key, -⟩, idx⟩ := tie
  cases a
  cases b
  rw [Candidate.mk.injEq]
  exact ⟨Std.LawfulEqOrd.eq_of_compare idx, Std.LawfulEqOrd.eq_of_compare key⟩

theorem candidate_linear (ix : VolumeIndex) (sort : SortSpec) : Linear (candidateLe ix sort) := by
  constructor
  · intro a b c
    exact Std.TransCmp.isLE_trans
  · intro a b
    have swap : cmpCandidate ix sort b a = (cmpCandidate ix sort a b).swap := Std.OrientedCmp.eq_swap
    rw [candidateLe, candidateLe, swap]
    cases cmpCandidate ix sort a b <;> rfl
  · intro a b ab ba
    have swap : cmpCandidate ix sort b a = (cmpCandidate ix sort a b).swap := Std.OrientedCmp.eq_swap
    rw [candidateLe] at ab
    rw [candidateLe, swap] at ba
    have tie : cmpCandidate ix sort a b = .eq := by
      cases order : cmpCandidate ix sort a b with
      | eq => rfl
      | lt => simp [order] at ba
      | gt => simp [order] at ab
    unfold cmpCandidate at tie
    split at tie
    · exact eq_of_cmpAscending (by simpa using tie)
    · exact eq_of_cmpAscending tie

end Order

section Buffer

variable {seen : List Candidate} {best : Best}

structure Best.Holds (ix : VolumeIndex) (sort : SortSpec) (want : Nat) (seen : List Candidate) (best : Best) : Prop where
  kept : smallest (candidateLe ix sort) want best.kept = smallest (candidateLe ix sort) want seen
  cutoff : ∀ c, best.cutoff = some c → want ≤ seen.countP (candidateLe ix sort · c)

theorem Best.holds_empty : Best.Holds ix sort want [] .empty := ⟨rfl, fun c none_ => by cases none_⟩

theorem Best.Holds.prune (holds : best.Holds ix sort want seen) : (best.prune ix sort want).Holds ix sort want seen := by
  have linear := candidate_linear ix sort
  unfold Best.prune
  split
  case isFalse => exact holds
  case isTrue full =>
    have chosen : (best.kept.mergeSort (candidateLe ix sort)).take want = smallest (candidateLe ix sort) want seen := holds.kept
    dsimp only
    rw [chosen]
    refine ⟨?_, fun c last => ?_⟩
    · simpa using linear.append_left want seen []
    -- the last of the chosen comes after them all, and there are `want` of them
    obtain ⟨inside, rfl⟩ := List.getElem?_eq_some_iff.mp last
    have length : (smallest (candidateLe ix sort) want seen).length = want := by
      rw [← chosen, length_take, length_mergeSort, full]
      omega
    have below : ∀ a ∈ smallest (candidateLe ix sort) want seen,
        candidateLe ix sort a (smallest (candidateLe ix sort) want seen)[want - 1] = true := by
      intro a mem
      obtain ⟨i, lt, rfl⟩ := getElem_of_mem mem
      have sorted : (smallest (candidateLe ix sort) want seen).Pairwise fun a b => candidateLe ix sort a b = true :=
        (linear.sorted seen).sublist (take_sublist _ _)
      rcases Nat.lt_or_ge i (want - 1) with before | here
      · exact pairwise_iff_getElem.mp sorted i (want - 1) lt inside before
      · have same : i = want - 1 := by omega
        simp only [same]
        exact linear.refl _
    calc want = (smallest (candidateLe ix sort) want seen).countP _ := by rw [countP_eq_length.mpr below, length]
      _ ≤ (seen.mergeSort (candidateLe ix sort)).countP _ := (take_sublist _ _).countP_le
      _ = seen.countP _ := (mergeSort_perm _ _).countP_eq _

theorem Best.Holds.offer (holds : best.Holds ix sort want seen) (c : Candidate) :
    (best.offer ix sort want c).Holds ix sort want (seen ++ [c]) := by
  have linear := candidate_linear ix sort
  have pruned := holds.prune
  unfold Best.offer
  dsimp only
  have grown : ∀ cut, (best.prune ix sort want).cutoff = some cut → want ≤ (seen ++ [c]).countP (candidateLe ix sort · cut) := by
    intro cut at_
    have many := pruned.cutoff cut at_
    rw [countP_append]
    omega
  split
  case isTrue beyond =>
    obtain ⟨cut, at_, after⟩ : ∃ cut, (best.prune ix sort want).cutoff = some cut ∧ cmpCandidate ix sort c cut = .gt := by
      simpa [Option.any_eq_true] using beyond
    have before : candidateLe ix sort cut c = true := by
      have first := linear.total c cut
      simpa [candidateLe, after] using first
    have many : want ≤ seen.countP (candidateLe ix sort · c) :=
      (pruned.cutoff cut at_).trans (countP_mono_left fun a _ le => linear.trans a cut c le before)
    refine ⟨?_, grown⟩
    rw [pruned.kept, ← linear.cons_of_count many]
    exact linear.congr (perm_append_singleton c seen).symm
  case isFalse => exact ⟨linear.append_congr pruned.kept rfl, grown⟩

end Buffer

section Plain

variable [Externals]

omit [Externals] in
theorem topKApplies_iff {scope : Option EntryIdx} {sort : SortSpec} {offset : Nat} :
    topKApplies ix parsed compiled scope sort offset limit = true ↔ sort.key ≠ .path ∧ offset + limit ≤ topKMax ∧
      scope = none ∧ parsed.matchCase = false ∧ (∃ needle, compiled.prefilter = some needle) ∧
      compiled.volumeAdmits = true ∧ testsPaths parsed compiled = false ∧ ix.mayHaveUnpresentable = false := by
  simp [topKApplies, Option.isSome_iff_exists, and_assoc]

def named (ix : VolumeIndex) (parsed : ParsedQuery) (compiled : CompiledQuery) (decided : Bool) (id : NameId) : Bool :=
  decided || (nameMatches ix parsed compiled id).quiet

omit [Externals] in
def candidatesOf (ix : VolumeIndex) (parsed : ParsedQuery) (entries : List EntryIdx) : List Candidate :=
  (entries.filter fun e => !ix.isSynthetic e && columnsMatch ix parsed.filters e).map (⟨·, 0⟩)

@[simp] theorem quiet_nameTest (decided : Bool) (idx : EntryIdx) :
    (nameTest ix parsed compiled decided idx).quiet = named ix parsed compiled decided (ix.entries.nameId idx) := by
  cases decided <;> simp [nameTest, named]

/-- Where every entry has a path and no path is tested, an entry is tested by its columns and its name. -/
theorem quiet_evaluate_plain (plain : ix.mayHaveUnpresentable = false) {memos : Memos} (bare : memos.folders = none)
    (decided : Bool) (idx : EntryIdx) : (evaluate ix parsed compiled none decided memos idx).quiet =
      (if columnsMatch ix parsed.filters idx && named ix parsed compiled decided (ix.entries.nameId idx) then some ⟨idx, 0⟩
        else none, memos) := by
  have path : (memos.pathTest ix parsed compiled idx).quiet = (true, memos) := by
    unfold Memos.pathTest
    rw [bare]
    simp [plain]
  unfold evaluate
  rw [quiet_ite, quiet_bind, quiet_nameTest]
  cases columnsMatch ix parsed.filters idx with
  | false => rfl
  | true =>
    cases named ix parsed compiled decided (ix.entries.nameId idx) with
    | false => rfl
    | true => simp [Memos.scopeTest, path]

end Plain

section Gather

variable [Externals] (plain : ix.mayHaveUnpresentable = false)
include plain

theorem quiet_gatherEntries {st : Gathering} (bare : st.memos.folders = none) (entries : List EntryIdx) :
    (entries.foldlM (gatherEntry ix parsed compiled sort want sumSizes) st).quiet =
      { st with toGathered := (candidatesOf ix parsed entries).foldl (Gathered.take ix sort want sumSizes) st.toGathered } := by
  rw [quiet_foldlM]
  induction entries generalizing st with
  | nil => rfl
  | cons idx rest ih =>
    have step : (gatherEntry ix parsed compiled sort want sumSizes st idx).quiet =
        { st with toGathered := (candidatesOf ix parsed [idx]).foldl (Gathered.take ix sort want sumSizes) st.toGathered } := by
      unfold gatherEntry candidatesOf
      rw [quiet_ite, quiet_bind, quiet_evaluate_plain plain bare]
      cases synthetic : ix.isSynthetic idx with
      | true => simp [synthetic]
      | false => cases passes : columnsMatch ix parsed.filters idx <;> simp [synthetic, passes, named]
    have split : candidatesOf ix parsed (idx :: rest) = candidatesOf ix parsed [idx] ++ candidatesOf ix parsed rest := by
      rw [candidatesOf, ← singleton_append, filter_append, map_append]
      rfl
    rw [foldl_cons, step, split, foldl_append]
    exact ih (by exact bare)

omit plain in
theorem quiet_verify (due : Bool) (watch : Watch) (id : NameId) :
    (verify ix parsed compiled due watch id).quiet.1 = named ix parsed compiled (!due) id := by
  cases due with
  | false => rfl
  | true =>
    unfold verify
    simp [named]

def nameCandidates (ix : VolumeIndex) (parsed : ParsedQuery) (compiled : CompiledQuery) (id : NameId) : List Candidate :=
  if named ix parsed compiled compiled.prefilterDecidesName id then candidatesOf ix parsed (ix.nameChain id) else []

theorem quiet_gatherNames {st : Gathering} (bare : st.memos.folders = none) (hits : List NameId) :
    (hits.foldlM (gatherName ix parsed compiled sort want sumSizes) st).quiet.toGathered =
      (hits.flatMap (nameCandidates ix parsed compiled)).foldl (Gathered.take ix sort want sumSizes) st.toGathered := by
  rw [quiet_foldlM]
  induction hits generalizing st with
  | nil => rfl
  | cons id rest ih =>
    have step : ∃ watch, (gatherName ix parsed compiled sort want sumSizes st id).quiet =
        { st with
          watch := watch
          toGathered := (nameCandidates ix parsed compiled id).foldl (Gathered.take ix sort want sumSizes) st.toGathered } := by
      refine ⟨(verify ix parsed compiled (!compiled.prefilterDecidesName) st.watch id).quiet.2, ?_⟩
      unfold gatherName nameCandidates
      rw [quiet_bind, quiet_ite, quiet_verify, Bool.not_not]
      split
      · exact quiet_gatherEntries plain (by exact bare) _
      · rfl
    obtain ⟨watch, step⟩ := step
    rw [foldl_cons, step, flatMap_cons, foldl_append]
    exact ih (by exact bare)

def chunkCandidates (ix : VolumeIndex) (parsed : ParsedQuery) (compiled : CompiledQuery) (per i : Nat) : List Candidate :=
  let ids := chunkIds i per ix.names.ids
  (prefilterHitsIn ix.names (compiled.prefilter.getD []) ids.1 ids.2).flatMap (nameCandidates ix parsed compiled)

theorem quiet_gatherBuffer (per : Nat) (chunks : List Nat) :
    (gatherBuffer ix parsed compiled sort want sumSizes per chunks).quiet =
      (chunks.flatMap (chunkCandidates ix parsed compiled per)).foldl (Gathered.take ix sort want sumSizes)
        { best := .empty, count := 0, size := 0 } := by
  unfold gatherBuffer
  rw [quiet_foldlM]
  generalize ({ best := .empty, count := 0, size := 0 } : Gathered) = start
  induction chunks generalizing start with
  | nil => rfl
  | cons i rest ih =>
    have step : (gatherChunk ix parsed compiled sort want sumSizes per start i).quiet =
        (chunkCandidates ix parsed compiled per i).foldl (Gathered.take ix sort want sumSizes) start := by
      unfold gatherChunk
      simp only [bind_pure_comp, quiet_map]
      rw [quiet_gatherNames plain rfl]
      rfl
    rw [foldl_cons, step, ih, flatMap_cons, foldl_append]

end Gather

theorem foldl_saturatingAdd {start : Nat} (small : start ≤ u64Max) (sizes : List Nat) :
    sizes.foldl saturatingAdd start = min (start + sizes.sum) u64Max := by
  induction sizes generalizing start with
  | nil => simpa using small
  | cons size rest ih =>
    have inside : saturatingAdd start size ≤ u64Max := Nat.min_le_right _ _
    rw [foldl_cons, ih inside, saturatingAdd, sum_cons]
    omega

theorem saturatingAdd_assoc (a b c : Nat) : saturatingAdd (saturatingAdd a b) c = saturatingAdd a (saturatingAdd b c) := by
  simp only [saturatingAdd]
  omega

theorem filesSize_eq (entries : List EntryIdx) : filesSize ix entries = min (entries.filterMap (fileSize ix)).sum u64Max := by
  rw [filesSize, foldl_saturatingAdd (Nat.zero_le _), Nat.zero_add]

theorem filesSize_perm {left right : List EntryIdx} (perm : left.Perm right) : filesSize ix left = filesSize ix right := by
  rw [filesSize_eq, filesSize_eq, (perm.filterMap _).sum_eq]

theorem filesSize_append (left right : List EntryIdx) :
    filesSize ix (left ++ right) = saturatingAdd (filesSize ix left) (filesSize ix right) := by
  rw [filesSize_eq, filesSize_eq, filesSize_eq, filterMap_append, sum_append, saturatingAdd]
  omega

theorem foldl_filesSize (parts : List (List EntryIdx)) :
    (parts.map (filesSize ix)).foldl saturatingAdd 0 = filesSize ix parts.flatten := by
  rw [foldl_saturatingAdd (Nat.zero_le _), Nat.zero_add]
  induction parts with
  | nil => rfl
  | cons part rest ih =>
    rw [map_cons, sum_cons, flatten_cons, filesSize_append, ← ih, saturatingAdd]
    omega

theorem count_foldl_take (found : Gathered) (cands : List Candidate) :
    (cands.foldl (Gathered.take ix sort want sumSizes) found).count = found.count + cands.length := by
  induction cands generalizing found with
  | nil => rfl
  | cons c rest ih =>
    rw [foldl_cons, ih, length_cons]
    show found.count + 1 + rest.length = _
    omega

theorem size_foldl_take (summed : sumSizes = true) {found : Gathered} (small : found.size ≤ u64Max) (cands : List Candidate) :
    (cands.foldl (Gathered.take ix sort want sumSizes) found).size =
      saturatingAdd found.size (filesSize ix (cands.map idx)) := by
  induction cands generalizing found with
  | nil =>
    show found.size = min (found.size + 0) u64Max
    omega
  | cons c rest ih =>
    have size : (found.take ix sort want sumSizes c).size = saturatingAdd found.size (filesSize ix [c.idx]) := by
      simp [Gathered.take, summed]
    rw [foldl_cons, ih (by rw [size]; exact Nat.min_le_right _ _), size, saturatingAdd_assoc, ← filesSize_append]
    rfl

theorem holds_foldl_take (asked : want ≠ 0) {found : Gathered} {seen : List Candidate}
    (holds : found.best.Holds ix sort want seen) (cands : List Candidate) :
    (cands.foldl (Gathered.take ix sort want sumSizes) found).best.Holds ix sort want
      (seen ++ cands.map fun c => { c with key := entryKey ix sort c.idx }) := by
  induction cands generalizing found seen with
  | nil => simpa using holds
  | cons c rest ih =>
    have step : (found.take ix sort want sumSizes c).best =
        found.best.offer ix sort want { c with key := entryKey ix sort c.idx } := by
      simp [Gathered.take, asked]
    rw [foldl_cons, map_cons, append_cons]
    apply ih
    rw [step]
    exact holds.offer _

section Equal

variable [Externals]

omit [Externals] in
theorem topKPage_eq (key : req.sort.key ≠ .path) (limited : req.limit = some limit) {buffers : List (List Candidate)}
    {all_ : List Candidate} (perm : buffers.flatten.Perm all_) :
    req.topKPage ix limit (buffers.map fun cands =>
      cands.foldl (Gathered.take ix req.sort (req.offset + limit) req.sumSizes) { best := .empty, count := 0, size := 0 }) =
        req.scanPage ix all_ := by
  have linear := candidate_linear ix req.sort
  have total : ((buffers.map fun cands => cands.foldl (Gathered.take ix req.sort (req.offset + limit) req.sumSizes)
      { best := .empty, count := 0, size := 0 }).map Gathered.count).sum = all_.length := by
    rw [← perm.length_eq, length_flatten, map_map]
    congr 1
    apply map_congr_left
    intro cands _
    simp [count_foldl_take]
  unfold topKPage scanPage
  rw [total, limited]
  dsimp only
  congr 1
  · unfold rowsOf
    congr 2
    set start : Gathered := { best := .empty, count := 0, size := 0 }
    set page := pageBounds all_.length req.offset (some limit)
    have reach : page.2 ≤ req.offset + limit := by
      show min (min req.offset all_.length + limit) all_.length ≤ _
      omega
    unfold order orderTop keyed
    rw [if_neg key]
    split
    case isTrue none_ => rw [none_, take_zero, take_zero]
    case isFalse some_ =>
      -- a page that ends within `want` rows sees no more than the best `want`
      have holds (cands : List Candidate) :
          (cands.foldl (Gathered.take ix req.sort (req.offset + limit) req.sumSizes) start).best.Holds ix req.sort
            (req.offset + limit) ([] ++ cands.map fun c => { c with key := entryKey ix req.sort c.idx }) :=
        holds_foldl_take (by omega) Best.holds_empty cands
      show smallest _ page.2 _ = smallest _ page.2 _
      rw [← take_smallest reach, ← take_smallest reach, ← linear.congr (perm.map _), flatMap_map, map_flatten,
        ← flatMap_def]
      congr 1
      exact linear.flatMap_congr fun cands _ => (holds cands).kept
  · cases summed : req.sumSizes with
    | false => rfl
    | true =>
      simp only [if_true, Option.some.injEq]
      rw [← filesSize_perm (perm.map idx), map_flatten, ← foldl_filesSize, map_map, map_map]
      congr 1
      apply map_congr_left
      intro cands _
      simp only [Function.comp]
      rw [size_foldl_take rfl (Nat.zero_le _), saturatingAdd, Nat.zero_add, Nat.min_eq_left]
      rw [filesSize_eq]
      exact Nat.min_le_right _ _

/-- However the chunks are shared out, the page is that of the candidates of all chunks. -/
theorem topK_eq_chunks (schedule : Schedule ix.names.ids per) (key : req.sort.key ≠ .path)
    (limited : req.limit = some limit) (plain : ix.mayHaveUnpresentable = false) :
    req.topKPage ix limit ((req.gatherers ix schedule limit).map quiet) = req.scanPage ix
      ((range (chunkCount per ix.names.ids)).flatMap (chunkCandidates ix req.parsed req.compiled per)) := by
  have quiet : (req.gatherers ix schedule limit).map quiet =
      (schedule.buffers.map fun chunks => chunks.flatMap (chunkCandidates ix req.parsed req.compiled per)).map fun cands =>
        cands.foldl (Gathered.take ix req.sort (req.offset + limit) req.sumSizes) { best := .empty, count := 0, size := 0 } := by
    unfold gatherers
    rw [map_map, map_map]
    exact map_congr_left fun chunks _ => quiet_gatherBuffer plain per chunks
  rw [quiet]
  apply topKPage_eq key limited
  have joined : (schedule.buffers.map fun chunks => chunks.flatMap (chunkCandidates ix req.parsed req.compiled per)).flatten =
      schedule.buffers.flatten.flatMap (chunkCandidates ix req.parsed req.compiled per) := by
    rw [← flatMap_def, flatten_eq_flatMap, flatMap_assoc]
    rfl
  rw [joined]
  exact schedule.covers.flatMap_right _

end Equal

theorem flatMap_chunkIds (pos : 0 < per) (names : Nat) :
    ((range (chunkCount per names)).flatMap fun i =>
      range' (chunkIds i per names).1 ((chunkIds i per names).2 - (chunkIds i per names).1)) = range names := by
  have upTo : ∀ count, ((range count).flatMap fun i =>
      range' (chunkIds i per names).1 ((chunkIds i per names).2 - (chunkIds i per names).1)) =
        range (min (count * (per * 64)) names) := by
    intro count
    induction count with
    | zero => simp
    | succ count ih =>
      have first : (chunkIds count per names).1 = min (count * (per * 64)) names := by rw [← Nat.mul_assoc]; rfl
      have stop : (chunkIds count per names).2 = min ((count + 1) * (per * 64)) names := by rw [← Nat.mul_assoc]; rfl
      have grows : min (count * (per * 64)) names ≤ min ((count + 1) * (per * 64)) names :=
        min_le_min_right _ (Nat.mul_le_mul_right _ (Nat.le_succ _))
      rw [range_succ, flatMap_append, ih, flatMap_singleton, first, stop, range_eq_range',
        range_eq_range']
      have joined := List.range'_append_1 (s := 0) (m := min (count * (per * 64)) names)
        (n := min ((count + 1) * (per * 64)) names - min (count * (per * 64)) names)
      rwa [Nat.zero_add, Nat.add_sub_cancel' grows] at joined
  rw [upTo, Nat.min_eq_right]
  have wide : 0 < per * 64 := by omega
  have enough := Nat.div_add_mod (names + per * 64 - 1) (per * 64)
  have rest := Nat.mod_lt (names + per * 64 - 1) wide
  rw [chunkCount, Nat.mul_comm]
  omega

section Scan

variable [Externals] (plain : ix.mayHaveUnpresentable = false)
include plain

theorem quiet_consultEach_plain (decided : Bool) (st : Searching) (bare : st.memos.folders = none) (entries : List EntryIdx) :
    ∃ watch, (consultEach ix parsed compiled none decided entries st).quiet =
      { st with
        watch := watch
        candidates := st.candidates ++ candidatesOf ix parsed
          (entries.filter fun e => named ix parsed compiled decided (ix.entries.nameId e)) } := by
  induction entries generalizing st with
  | nil => exact ⟨st.watch, by simp [consultEach, candidatesOf]⟩
  | cons idx rest ih =>
    have step : (consult ix parsed compiled none decided { st with watch := st.watch.tick.quiet.2 } idx).quiet =
        { st with
          watch := st.watch.tick.quiet.2
          candidates := st.candidates ++ candidatesOf ix parsed
            ([idx].filter fun e => named ix parsed compiled decided (ix.entries.nameId e)) } := by
      unfold consult
      rw [quiet_ite, quiet_bind, quiet_evaluate_plain plain (by exact bare)]
      cases synthetic : ix.isSynthetic idx <;> cases passes : columnsMatch ix parsed.filters idx <;>
        cases name : named ix parsed compiled decided (ix.entries.nameId idx) <;>
        simp [candidatesOf, synthetic, passes, name]
    obtain ⟨watch, rest_⟩ := ih { st with
      watch := st.watch.tick.quiet.2
      candidates := st.candidates ++ candidatesOf ix parsed
        ([idx].filter fun e => named ix parsed compiled decided (ix.entries.nameId e)) } bare
    refine ⟨watch, ?_⟩
    rw [consultEach, quiet_bind, quiet_ite, Watch.quiet_tick, if_neg (by simp), quiet_bind, step, rest_]
    simp [candidatesOf, ← filter_append, ← map_append]

/-- Where no path is tested, a scan for a literal finds the candidates of the names that hold it. -/
theorem quiet_scan_plain (ok : ix.Integrity) (driven : driver parsed compiled = some needle)
    (admits : compiled.volumeAdmits = true) (untested : testsPaths parsed compiled = false) (walkFloor : Nat) :
    (scanWith ix parsed compiled none walkFloor).quiet =
      (prefilterHits ix.names needle).flatMap (nameCandidates ix parsed compiled) := by
  have chain (id : NameId) : candidatesOf ix parsed ((ix.nameChain id).filter fun e =>
      named ix parsed compiled compiled.prefilterDecidesName (ix.entries.nameId e)) = nameCandidates ix parsed compiled id := by
    have same : (ix.nameChain id).filter (fun e => named ix parsed compiled compiled.prefilterDecidesName (ix.entries.nameId e)) =
        (ix.nameChain id).filter fun _ => named ix parsed compiled compiled.prefilterDecidesName id := by
      apply filter_congr
      intro e mem
      rw [(((ok.nameChain id).2.1 e).mp mem).2]
    rw [same, nameCandidates]
    cases named ix parsed compiled compiled.prefilterDecidesName id <;> simp [candidatesOf]
  have hits (ids : List NameId) (st : Searching) (bare : st.memos.folders = none) :
      (ids.foldl (fun st id =>
        (consultEach ix parsed compiled none compiled.prefilterDecidesName (ix.nameChain id) st).quiet) st).candidates =
          st.candidates ++ ids.flatMap (nameCandidates ix parsed compiled) := by
    induction ids generalizing st with
    | nil => simp
    | cons id rest ih =>
      obtain ⟨watch, step⟩ : ∃ watch, (consultEach ix parsed compiled none _ _ st).quiet = _ :=
        quiet_consultEach_plain plain compiled.prefilterDecidesName st bare (ix.nameChain id)
      rw [foldl_cons, step, ih _ (by exact bare), flatMap_cons, chain, append_assoc]
  unfold scanWith
  rw [quiet_ite, if_pos admits]
  unfold scanNames
  simp only [driven, Option.getD_none, bind_pure_comp, quiet_map, quiet_foldlM]
  rw [hits _ _ (by simp [Memos.new, untested]), nil_append]

end Scan

section Main

variable [Externals]

theorem compile_prefilter_ne_nil {mount : Bytes}
    (found : (compile parsed mount).prefilter = some needle) : needle ≠ [] := (prefilterOf_cases found).1

theorem driver_ne_nil {mount : Bytes} (driven : driver parsed (compile parsed mount) = some needle) : needle ≠ [] := by
  unfold driver at driven
  split at driven
  · cases driven
  · exact compile_prefilter_ne_nil driven

theorem prefilterHits_chunks {ix : VolumeIndex} (ok : ix.Integrity) (nonempty : needle ≠ [])
    (pos : 0 < per) : ((range (chunkCount per ix.names.ids)).flatMap fun i =>
      prefilterHitsIn ix.names needle (chunkIds i per ix.names.ids).1 (chunkIds i per ix.names.ids).2) =
        prefilterHits ix.names needle := by
  have laid := ok.names.laid
  have part (i : Nat) : prefilterHitsIn ix.names needle (chunkIds i per ix.names.ids).1 (chunkIds i per ix.names.ids).2 = _ :=
    prefilterHitsIn_eq laid nonempty (Nat.min_le_right _ _)
  simp only [part]
  rw [prefilterHits, prefilterHitsIn_eq laid nonempty le_rfl, ← filter_flatMap, flatMap_chunkIds pos,
    Nat.sub_zero, range_eq_range']

theorem topKPage_eq_scanPage {ix : VolumeIndex} (ok : ix.Integrity) (req : PageRequest) (limited : req.limit = some limit)
    (applies : topKApplies ix req.parsed req.compiled (req.scopeIn ix) req.sort req.offset limit = true)
    (schedule : Schedule ix.names.ids per) :
    req.topKPage ix limit ((req.gatherers ix schedule limit).map quiet) =
      req.scanPage ix (scan ix req.parsed req.compiled (req.scopeIn ix)).quiet := by
  obtain ⟨key, -, unscoped, ignores, ⟨needle, found⟩, admits, untested, plain⟩ := topKApplies_iff.mp applies
  have driven : driver req.parsed req.compiled = some needle := by simp [driver, ignores, found]
  rw [topK_eq_chunks schedule key limited plain, unscoped, scan, quiet_scan_plain plain ok driven admits untested]
  congr 1
  rw [← prefilterHits_chunks ok (compile_prefilter_ne_nil found) schedule.pos, flatMap_assoc]
  unfold chunkCandidates
  rw [found]
  rfl

/-- Gathering the best rows of a page, over any chunks on any threads, is collecting every match and sorting. -/
theorem top_k_equals_scan {rootFrn : Frn} {ix : VolumeIndex} (reachable : Reachable rootFrn ix) (req : PageRequest)
    {limit : Nat} (limited : req.limit = some limit)
    (applies : topKApplies ix req.parsed req.compiled (req.scopeIn ix) req.sort req.offset limit = true) {per : Nat}
    (schedule : Schedule ix.names.ids per) :
    req.topKPage ix limit ((req.gatherers ix schedule limit).map quiet) =
      req.scanPage ix (scan ix req.parsed req.compiled (req.scopeIn ix)).quiet :=
  topKPage_eq_scanPage reachable.invariant.integrity req limited applies schedule

def nameQuery (text : Bytes) : ParsedQuery where
  nameTerms := [text]
  pathTerms := []
  wildcards := []
  pathWildcards := []
  filters := {}
  matchCase := false

omit [Externals] in
def firstBySize : PageRequest where
  mount := []
  parsed := nameQuery [0x61]
  scope := none
  sort := ⟨.size, .asc⟩
  offset := 0
  limit := some 1
  sumSizes := true

def oneChunk : Schedule folderIndex.names.ids 1 where
  pos := by decide
  buffers := [[0]]
  covers := by decide

omit [Externals] in
theorem folderIndex_first_by_size :
    letI := ascii
    topKApplies folderIndex firstBySize.parsed firstBySize.compiled (firstBySize.scopeIn folderIndex) firstBySize.sort 0 1 =
        true ∧
      firstBySize.topKPage folderIndex 1 ((firstBySize.gatherers folderIndex oneChunk 1).map quiet) =
        firstBySize.scanPage folderIndex
          (scan folderIndex firstBySize.parsed firstBySize.compiled (firstBySize.scopeIn folderIndex)).quiet := by
  let _ := ascii
  have applies : topKApplies folderIndex firstBySize.parsed firstBySize.compiled (firstBySize.scopeIn folderIndex)
    firstBySize.sort 0 1 = true := by decide
  exact ⟨applies, top_k_equals_scan reachable_folderIndex firstBySize rfl applies oneChunk⟩

end Main

variable [Externals] {fast : Bool}

theorem route_topK (way : req.route ix fast = .topK limit) : req.limit = some limit ∧
    topKApplies ix req.parsed req.compiled (req.scopeIn ix) req.sort req.offset limit = true := by
  unfold route at way
  split at way
  · cases way
  · split at way
    · cases way
    case h_2 l at_ =>
      split at way
      case isTrue applies =>
        obtain rfl : l = limit := by simpa using way
        simp only [Bool.and_eq_true] at applies
        exact ⟨at_, applies.2⟩
      case isFalse => cases way

theorem pageRefs_schedule (schedule other : Schedule ix.names.ids per) :
    req.pageRefs ix schedule fast = req.pageRefs ix other fast := by
  unfold pageRefs
  split
  · rfl
  case h_2 limit way =>
    obtain ⟨limited, applies⟩ := route_topK way
    obtain ⟨key, -, -, -, -, -, -, plain⟩ := topKApplies_iff.mp applies
    rw [topK_eq_chunks schedule key limited plain, topK_eq_chunks other key limited plain]
  · rfl

/-- Whatever the budget answers and however the threads run, a query is stopped or gets the page that it gets from a
    budget that is never spent. -/
theorem stopped_or_complete (ix : VolumeIndex) (req : PageRequest) (fast : Bool) {per : Nat}
    (schedule other : Schedule ix.names.ids per) {outcome : Except Stopped RefOutcome}
    (answered : req.Answered ix schedule fast outcome) :
    outcome = .error .stopped ∨ outcome = .ok (req.pageRefs ix other fast) := by
  rw [pageRefs_schedule other schedule]
  have settle {heard : Bool} {page : RefOutcome} (whole : heard = false → page = req.pageRefs ix schedule fast) :
      settled heard page = .error .stopped ∨
        settled heard page = .ok (req.pageRefs ix schedule fast) := by
    cases heard with
    | true => exact .inl rfl
    | false => exact .inr (congrArg Except.ok (whole rfl))
  unfold pageRefs at settle ⊢
  cases answered with
  | names way ran =>
    rw [way] at settle ⊢
    refine settle fun silent => ?_
    rw [silent] at ran
    rw [ran.eq_quiet]
  | topK way ran =>
    rw [way] at settle ⊢
    refine settle fun silent => ?_
    rw [silent] at ran
    rw [ran.eq_quiet]
  | scan way ran =>
    rw [way] at settle ⊢
    refine settle fun silent => ?_
    rw [silent] at ran
    obtain ⟨rfl⟩ := ran.eq_quiet
    rfl

def allBySize : PageRequest := { firstBySize with parsed := { nameQuery [] with nameTerms := [] }, limit := none }

omit [Externals] in
theorem allBySize_stopped :
    letI := ascii
    allBySize.Answered folderIndex oneChunk true (.error .stopped) := by
  let _ := ascii
  have way : allBySize.route folderIndex true = .scan := by decide
  have ran : Asking.Par [scan folderIndex allBySize.parsed allBySize.compiled (allBySize.scopeIn folderIndex)] [[]] (true || false) :=
    @Asking.Par.ask _ [] [] _ true _ _ (Asking.Par.done [[]])
  exact .scan way ran

omit [Externals] in
theorem allBySize_refused :
    letI := ascii
    allBySize.Answered folderIndex oneChunk true (.error .stopped) ∧
      ((.error .stopped : Except Stopped RefOutcome) = .error .stopped ∨
        (.error .stopped : Except Stopped RefOutcome) = .ok (allBySize.pageRefs folderIndex oneChunk true)) :=
  letI := ascii
  ⟨allBySize_stopped, stopped_or_complete folderIndex allBySize true oneChunk oneChunk allBySize_stopped⟩

end Goz.Query
