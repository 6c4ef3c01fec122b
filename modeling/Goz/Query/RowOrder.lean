import Goz.Query.FolderOrder
import Goz.Query.NameLevel

namespace Goz

open List Externals

variable {sort : SortSpec} {ix : VolumeIndex}

section Keys

variable {t : Int64}

theorem xor_signBit {x : Nat} (bound : x < 2 ^ 64) : x ^^^ 2 ^ 63 = if x < 2 ^ 63 then x + 2 ^ 63 else x - 2 ^ 63 := by
  have low : (x ^^^ 2 ^ 63) % 2 ^ 63 = x % 2 ^ 63 := by rw [Nat.xor_mod_two_pow, Nat.mod_self, Nat.xor_zero]
  have high : (x ^^^ 2 ^ 63) / 2 ^ 63 = x / 2 ^ 63 ^^^ 1 := by rw [Nat.xor_div_two_pow, Nat.div_self (by decide)]
  split
  case isTrue small =>
    rw [Nat.div_eq_of_lt small, show 0 ^^^ 1 = 1 from rfl] at high
    omega
  case isFalse large =>
    rw [show x / 2 ^ 63 = 1 by omega, show 1 ^^^ 1 = 0 from rfl] at high
    omega

theorem toNat_flipSign (t : Int64) : ((t.toUInt64 ^^^ 0x8000000000000000).toNat : Int) = t.toInt + 2 ^ 63 := by
  have signed : t.toInt = _ := BitVec.toInt_eq_toNat_cond t.toBitVec
  have bound := t.toUInt64.toNat_lt
  rw [Int64.toNat_toBitVec] at signed
  rw [UInt64.toNat_xor, show (0x8000000000000000 : UInt64).toNat = 2 ^ 63 from rfl, xor_signBit bound]
  split at signed <;> split <;> omega

theorem toNat_unknownLast {k : UInt64} (below : k.toNat < 2 ^ 64 - 1) (dir : SortDir) :
    (unknownLast (some k) dir).toNat = k.toNat + if dir = .desc then 1 else 0 := by
  cases dir with
  | asc => rfl
  | desc =>
    show (k + 1).toNat = k.toNat + 1
    rw [UInt64.toNat_add, UInt64.toNat_one]
    omega

theorem toNat_sizeKey {size : UInt64} (known : size ≠ sizeUnknown) (dir : SortDir) :
    (sizeKey (some size) dir).toNat = size.toNat + if dir = .desc then 1 else 0 := by
  have bound := size.toNat_lt
  have notMax : size.toNat ≠ 2 ^ 64 - 1 := fun same => known (UInt64.toNat.inj same)
  apply toNat_unknownLast
  omega

theorem toNat_dateWord (known : t ≠ mtimeUnknown) :
    (((t.toUInt64 ^^^ 0x8000000000000000) - 1).toNat : Int) = t.toInt + 2 ^ 63 - 1 := by
  have low := t.le_toInt
  have flipped := toNat_flipSign t
  have notMin : t.toInt ≠ -2 ^ 63 := fun same => known (Int64.toInt.inj same)
  have one : (1 : UInt64) ≤ t.toUInt64 ^^^ 0x8000000000000000 := by
    rw [UInt64.le_iff_toNat_le, UInt64.toNat_one]
    omega
  rw [UInt64.toNat_sub_of_le _ _ one, UInt64.toNat_one]
  omega

theorem toNat_mtimeKey (known : t ≠ mtimeUnknown) (dir : SortDir) :
    ((mtimeKey (some t) dir).toNat : Int) = t.toInt + 2 ^ 63 - 1 + if dir = .desc then 1 else 0 := by
  have high := t.toInt_lt
  have word := toNat_dateWord known
  rw [mtimeKey, Option.map_some, toNat_unknownLast (by omega)]
  split <;> push_cast <;> omega

theorem compare_toNat (a b : UInt64) : compare a.toNat b.toNat = compare a b := by
  rcases Std.lt_trichotomy a b with lt | rfl | gt
  · rw [Std.compare_eq_lt.mpr lt, Nat.compare_eq_lt.mpr (UInt64.lt_iff_toNat_lt.mp lt)]
  · rw [Std.compare_self, Std.compare_self]
  · rw [Std.compare_eq_gt.mpr gt, Nat.compare_eq_gt.mpr (UInt64.lt_iff_toNat_lt.mp gt)]

theorem compare_unknownLast {k l : Option UInt64} (kept : ∀ v ∈ k, v.toNat < 2 ^ 64 - 1) (kept' : ∀ v ∈ l, v.toNat < 2 ^ 64 - 1)
    (dir : SortDir) :
    compare (unknownLast k dir).toNat (unknownLast l dir).toNat =
      if k.isNone = l.isNone then compare k l else if l.isNone = decide (dir = .asc) then .lt else .gt := by
  cases k with
  | none =>
    cases l with
    | none => rw [Std.compare_self, if_pos rfl, Std.compare_self]
    | some l =>
      have below := kept' l rfl
      rw [toNat_unknownLast below]
      cases dir with
      | asc => exact Nat.compare_eq_gt.mpr (by simpa [unknownLast] using below)
      | desc => exact Nat.compare_eq_lt.mpr (Nat.succ_pos _)
  | some k =>
    have below := kept k rfl
    rw [toNat_unknownLast below]
    cases l with
    | none =>
      cases dir with
      | asc => exact Nat.compare_eq_lt.mpr (by simpa [unknownLast] using below)
      | desc => exact Nat.compare_eq_gt.mpr (Nat.succ_pos _)
    | some l =>
      rw [toNat_unknownLast (kept' l rfl)]
      show _ = compare k l
      rw [← compare_toNat]
      split
      · simp only [Nat.compare_eq_ite_lt, Nat.add_lt_add_iff_right]
      · rfl

end Keys

namespace Query

open VolumeIndex FolderRanks

variable {r s : Nat}

section Spec

variable (ix : VolumeIndex)

def folderPath (e : EntryIdx) : Bytes := ((ix.entries.parent e).map (viewPath ix true)).getD []

def lacksKey (key : SortKey) (e : EntryIdx) : Bool :=
  match key with
  | .size => (ix.sizeAt e).isNone
  | .dateModified => (ix.mtimeAt e).isNone
  | .name | .path => false

def keyOrder (key : SortKey) (a b : EntryIdx) : Ordering :=
  match key with
  | .name => compare (ix.foldedName a) (ix.foldedName b)
  | .path => compare (folderPath ix a) (folderPath ix b)
  | .size => compare (ix.sizeAt a) (ix.sizeAt b)
  | .dateModified => compare (ix.mtimeAt a) (ix.mtimeAt b)

def rowOrder (key : SortKey) (a b : EntryIdx) : Ordering :=
  ((keyOrder ix key a b).then (compare (ix.foldedName a) (ix.foldedName b))).then (compare a b)

/-- The order of the rows of a page: a descending sort reverses it, but a row without a key comes after those with one
    either way. -/
def RowBefore (sort : SortSpec) (a b : EntryIdx) : Prop :=
  if lacksKey ix sort.key a = lacksKey ix sort.key b then rowOrder ix sort.key a b = (if sort.dir = .desc then .gt else .lt)
  else lacksKey ix sort.key b = true

end Spec

section Fit

variable {x y : Candidate} {a b : EntryIdx}

/-- The integer keys and the names of two candidates compare as what the sort is by and the names do. -/
def KeysFit (ix : VolumeIndex) (sort : SortSpec) (x y : Candidate) : Prop :=
  (compare x.key y.key).then (compare (ix.foldedName x.idx) (ix.foldedName y.idx)) =
    if lacksKey ix sort.key x.idx = lacksKey ix sort.key y.idx then
      (keyOrder ix sort.key x.idx y.idx).then (compare (ix.foldedName x.idx) (ix.foldedName y.idx))
    else if lacksKey ix sort.key y.idx = decide (sort.dir = .asc) then .lt else .gt

theorem KeysFit.rowBefore (fit : KeysFit ix sort x y) (before : cmpCandidate ix sort x y = .lt) :
    RowBefore ix sort x.idx y.idx := by
  unfold cmpCandidate cmpAscending at before
  rw [fit] at before
  unfold RowBefore
  by_cases alike : lacksKey ix sort.key x.idx = lacksKey ix sort.key y.idx
  · rw [if_pos alike] at before ⊢
    cases dir : sort.dir with
    | asc => simpa [dir, rowOrder] using before
    | desc => simpa [dir, rowOrder] using before
  · rw [if_neg alike] at before ⊢
    cases dir : sort.dir with
    | asc =>
      by_contra other
      rw [Bool.not_eq_true] at other
      simp [dir, other] at before
    | desc =>
      by_contra other
      rw [Bool.not_eq_true] at other
      simp [dir, other] at before

theorem compare_then_of_follows {k l : Nat} {order : Ordering} (lt : order = .lt → k ≤ l) (eq : order = .eq → k = l)
    (gt : order = .gt → l ≤ k) : (compare k l).then order = order := by
  cases order with
  | lt =>
    rcases Nat.lt_or_eq_of_le (lt rfl) with less | rfl
    · rw [Nat.compare_eq_lt.mpr less]
      rfl
    · rw [Std.compare_self]
      rfl
  | eq =>
    rw [eq rfl, Std.compare_self]
    rfl
  | gt =>
    rcases Nat.lt_or_eq_of_le (gt rfl) with less | rfl
    · rw [Nat.compare_eq_gt.mpr less]
      rfl
    · rw [Std.compare_self]
      rfl

theorem nameKey_follows (ordered : ix.names.Ordered) {clamp : Nat → Nat} (mono : Monotone clamp)
    (liveA : ix.names.Live (ix.entries.nameId a)) (liveB : ix.names.Live (ix.entries.nameId b)) :
    (compare (clamp (ix.names.rankKey (ix.entries.nameId a))) (clamp (ix.names.rankKey (ix.entries.nameId b)))).then
      (compare (ix.foldedName a) (ix.foldedName b)) = compare (ix.foldedName a) (ix.foldedName b) := by
  apply compare_then_of_follows
  · intro lt
    exact mono (ordered.rankKey_le liveA liveB (compare_bytes_eq_lt.mp lt))
  · intro eq
    rw [ordered.rankKey_eq liveA liveB (Std.LawfulEqOrd.eq_of_compare eq)]
  · intro gt
    exact mono (ordered.rankKey_le liveB liveA (compare_bytes_eq_gt.mp gt))

theorem map_compare {t u : Option Int64} (known : ∀ v ∈ t, v ≠ mtimeUnknown) (known' : ∀ v ∈ u, v ≠ mtimeUnknown) :
    compare (t.map fun v => (v.toUInt64 ^^^ 0x8000000000000000) - 1) (u.map fun v => (v.toUInt64 ^^^ 0x8000000000000000) - 1) =
      compare t u := by
  cases t with
  | none =>
    cases u <;> rfl
  | some t =>
    cases u with
    | none => rfl
    | some u =>
      show compare ((t.toUInt64 ^^^ 0x8000000000000000) - 1) ((u.toUInt64 ^^^ 0x8000000000000000) - 1) = compare t u
      have word := toNat_dateWord (known t rfl)
      have word' := toNat_dateWord (known' u rfl)
      rw [← compare_toNat]
      rcases Std.lt_trichotomy t u with lt | rfl | gt
      · rw [Std.compare_eq_lt.mpr lt, Nat.compare_eq_lt]
        rw [Int64.lt_iff_toInt_lt] at lt
        omega
      · rw [Std.compare_self, Std.compare_self]
      · rw [Std.compare_eq_gt.mpr gt, Nat.compare_eq_gt]
        rw [Int64.lt_iff_toInt_lt] at gt
        omega

theorem sizeAt_ne (ix : VolumeIndex) (e : EntryIdx) : ∀ v ∈ ix.sizeAt e, v ≠ sizeUnknown := by
  intro v at_
  unfold sizeAt at at_
  split at at_
  · cases at_
  case isFalse known => exact Option.some.inj at_ ▸ known

theorem mtimeAt_ne (ix : VolumeIndex) (e : EntryIdx) : ∀ v ∈ ix.mtimeAt e, v ≠ mtimeUnknown := by
  intro v at_
  unfold mtimeAt at at_
  split at at_
  · cases at_
  case isFalse known => exact Option.some.inj at_ ▸ known

theorem size_fits (ix : VolumeIndex) (e : EntryIdx) : ∀ v ∈ ix.sizeAt e, v.toNat < 2 ^ 64 - 1 := by
  intro v at_
  have bound := v.toNat_lt
  have notMax : v.toNat ≠ 2 ^ 64 - 1 := fun same => sizeAt_ne ix e v at_ (UInt64.toNat.inj same)
  omega

theorem date_fits (ix : VolumeIndex) (e : EntryIdx) :
    ∀ v ∈ (ix.mtimeAt e).map fun t => (t.toUInt64 ^^^ 0x8000000000000000) - 1, v.toNat < 2 ^ 64 - 1 := by
  intro v at_
  obtain ⟨t, known, rfl⟩ := Option.map_eq_some_iff.mp at_
  have word := toNat_dateWord (mtimeAt_ne ix e t known)
  have high := t.toInt_lt
  omega

theorem ite_then {p q : Prop} [Decidable p] [Decidable q] (order tie : Ordering) :
    (if p then order else if q then .lt else .gt).then tie = if p then order.then tie else if q then .lt else .gt := by
  split
  · rfl
  · split <;> rfl

theorem entryKey_fits (ordered : ix.names.Ordered) (key : sort.key ≠ .path) (liveA : ix.names.Live (ix.entries.nameId a))
    (liveB : ix.names.Live (ix.entries.nameId b)) : KeysFit ix sort ⟨a, entryKey ix sort a⟩ ⟨b, entryKey ix sort b⟩ := by
  unfold KeysFit
  cases sortKey : sort.key with
  | path => exact absurd sortKey key
  | name =>
    simp only [entryKey, sortKey, lacksKey, keyOrder, if_true]
    have follows := nameKey_follows ordered monotone_id liveA liveB
    simp only [id] at follows
    rw [follows]
    cases compare (ix.foldedName a) (ix.foldedName b) <;> rfl
  | size =>
    simp only [entryKey, sortKey, lacksKey, keyOrder, sizeKey]
    rw [compare_unknownLast (size_fits ix a) (size_fits ix b), ite_then]
    congr
  | dateModified =>
    simp only [entryKey, sortKey, lacksKey, keyOrder, mtimeKey]
    rw [compare_unknownLast (date_fits ix a) (date_fits ix b), map_compare (mtimeAt_ne ix a) (mtimeAt_ne ix b)]
    simp only [Option.isNone_map, ite_then]
    congr

def packed (ix : VolumeIndex) (e : EntryIdx) (rank : Nat) : Candidate :=
  ⟨e, rank * 4294967296 + min (ix.names.rankKey (ix.entries.nameId e)) 0xFFFFFFFF⟩

theorem packed_follows (ordered : ix.names.Ordered) (liveA : ix.names.Live (ix.entries.nameId a))
    (liveB : ix.names.Live (ix.entries.nameId b)) (r s : Nat) :
    (compare (packed ix a r).key (packed ix b s).key).then (compare (ix.foldedName a) (ix.foldedName b)) =
      (compare r s).then (compare (ix.foldedName a) (ix.foldedName b)) := by
  have lowA : min (ix.names.rankKey (ix.entries.nameId a)) 0xFFFFFFFF < 4294967296 := by omega
  have lowB : min (ix.names.rankKey (ix.entries.nameId b)) 0xFFFFFFFF < 4294967296 := by omega
  simp only [packed]
  rcases Nat.lt_trichotomy r s with less | rfl | more
  · rw [Nat.compare_eq_lt.mpr less, Nat.compare_eq_lt.mpr (by omega)]
  · have follows := nameKey_follows ordered (fun _ _ le => min_le_min_right 0xFFFFFFFF le) liveA liveB
    rw [Std.compare_self, Nat.compare_eq_ite_lt]
    simp only [Nat.add_lt_add_iff_left, ← Nat.compare_eq_ite_lt]
    exact follows
  · rw [Nat.compare_eq_gt.mpr more, Nat.compare_eq_gt.mpr (by omega)]

theorem packed_fits (ordered : ix.names.Ordered) (key : sort.key = .path)
    (liveA : ix.names.Live (ix.entries.nameId a)) (liveB : ix.names.Live (ix.entries.nameId b))
    (lt : r < s ↔ folderPath ix a < folderPath ix b) (gt : s < r ↔ folderPath ix b < folderPath ix a)
    (eq : r = s ↔ folderPath ix a = folderPath ix b) : KeysFit ix sort (packed ix a r) (packed ix b s) := by
  have ranks : compare r s = compare (folderPath ix a) (folderPath ix b) := by
    rcases Std.lt_trichotomy (folderPath ix a) (folderPath ix b) with less | same | more
    · rw [compare_bytes_of_lt less, Nat.compare_eq_lt.mpr (lt.mpr less)]
    · rw [same, eq.mpr same, Std.compare_self, Std.compare_self]
    · rw [compare_bytes_eq_gt.mpr more, Nat.compare_eq_gt.mpr (gt.mpr more)]
  have follows := packed_follows ordered liveA liveB r s
  rw [ranks] at follows
  unfold KeysFit
  simp only [key, lacksKey, keyOrder, if_true]
  exact follows

end Fit

section Paths

variable [Externals] {found : List Candidate} {dirs : List EntryIdx}

omit [Externals] in
theorem length_gather (ix : VolumeIndex) (dirs : List EntryIdx) : (gather ix dirs).2.length = dirs.length := by
  induction dirs using reverseRecOn with
  | nil => rfl
  | append_singleton dirs d ih => rw [gather_concat, length_append, length_append, ih, length_singleton, length_singleton]

variable (inside : found.map (fun c => ix.entries.parent c.idx) = dirs.map some)
include inside

omit [Externals] in
theorem folderNodes_eq :
    folderNodes ix found = ((gather ix dirs).1, found.zipWith (fun c node => { c with key := node }) (gather ix dirs).2) := by
  induction found using reverseRecOn generalizing dirs with
  | nil =>
    obtain rfl : dirs = [] := by simpa using inside.symm
    rfl
  | append_singleton found c ih =>
    rcases eq_nil_or_concat' dirs with rfl | ⟨dirs, d, rfl⟩
    · simp at inside
    · rw [map_append, map_append] at inside
      obtain ⟨before, last⟩ := append_inj' inside rfl
      have parent : ix.entries.parent c.idx = some d := by simpa using last
      have length : found.length = (gather ix dirs).2.length := by
        rw [length_gather]
        simpa using congrArg List.length before
      rw [folderNodes, foldl_append, ← folderNodes, ih before, gather_concat]
      simp [parent, zipWith_append length]

omit [Externals] in
theorem pathKeys_eq :
    pathKeys ix found = found.zipWith (fun c rank => packed ix c.idx rank) (folderRanks ix dirs) := by
  rw [pathKeys, folderNodes_eq inside, folderRanks]
  simp only [map_zipWith, zipWith_map_right]
  rfl

omit inside

/-- What a sort by path relies on: folder names that can be the components of a path, and matches in folders that have
    one. There are fewer slots than the largest rank. -/
structure Foldered (ix : VolumeIndex) (entries : List EntryIdx) : Prop where
  fits : ix.entries.capacity ≤ unpresentable
  proper : ProperFolders ix
  inside : ∀ e ∈ entries, ∃ p, ix.entries.parent e = some p ∧ (ix.pathOf p []).1 = .ok

theorem rootOnTop_of_shown (ok : ix.Integrity) {e : EntryIdx} {out : Bytes} (shown : (ix.pathOf e out).1 = .ok) : RootOnTop ix := by
  obtain ⟨live, top, ⟨⟨k, -, way⟩, end_⟩, notLost⟩ := pathOf_ok shown
  rw [(ok.top top (ok.ascend_live live way) end_).resolve_right notLost] at end_
  exact fun _ => end_

omit [Externals] in
theorem Foldered.folders (foldered : Foldered ix (found.map Candidate.idx)) :
    ∃ dirs : List EntryIdx, found.map (fun c => ix.entries.parent c.idx) = dirs.map some ∧ ∀ d ∈ dirs, (ix.pathOf d []).1 = .ok := by
  refine ⟨found.filterMap fun c => ix.entries.parent c.idx, ?_, fun d mem => ?_⟩
  · rw [map_filterMap_some_eq_filter_map_isSome, filter_eq_self.mpr]
    intro parent mem
    obtain ⟨c, inside, rfl⟩ := mem_map.mp mem
    obtain ⟨p, at_, -⟩ := foldered.inside c.idx (mem_map_of_mem inside)
    rw [at_]
    rfl
  · obtain ⟨c, inside, at_⟩ := mem_filterMap.mp mem
    obtain ⟨p, at', shown⟩ := foldered.inside c.idx (mem_map_of_mem inside)
    rw [at_, Option.some.injEq] at at'
    exact at' ▸ shown

theorem Foldered.pathKeys_fit (foldered : Foldered ix (found.map Candidate.idx)) (ok : ix.Integrity)
    (ordered : ix.names.Ordered) (key : sort.key = .path) (live : ∀ c ∈ found, ix.Live c.idx) :
    (pathKeys ix found).map Candidate.idx = found.map Candidate.idx ∧
      ∀ x ∈ pathKeys ix found, ∀ y ∈ pathKeys ix found, KeysFit ix sort x y := by
  obtain ⟨dirs, inside, shown⟩ := foldered.folders
  have folders : ∀ d ∈ dirs, ix.IsFolder d := by
    intro d mem
    have there : some d ∈ found.map fun c => ix.entries.parent c.idx := inside ▸ mem_map_of_mem mem
    obtain ⟨c, cIn, parent⟩ := mem_map.mp there
    exact isFolder_parent ok (live c cIn) parent
  have ranked : ∀ d ∈ dirs, RanksLikePaths ix dirs := fun d mem =>
    ranksLikePaths ok ordered foldered.fits foldered.proper (rootOnTop_of_shown ok (shown d mem)) folders
  have members : ∀ x ∈ pathKeys ix found, ∃ c ∈ found, ∃ d rank, ix.entries.parent c.idx = some d ∧
      (d, rank) ∈ dirs.zip (folderRanks ix dirs) ∧ x = packed ix c.idx rank := by
    intro x mem
    rw [pathKeys_eq inside] at mem
    obtain ⟨i, at_⟩ := getElem?_of_mem mem
    obtain ⟨c, rank, cAt, rankAt, rfl⟩ := getElem?_zipWith_eq_some.mp at_
    have parents := congrArg (·[i]?) inside
    simp only [getElem?_map, cAt, Option.map_some] at parents
    obtain ⟨d, dAt, parent⟩ := Option.map_eq_some_iff.mp parents.symm
    exact ⟨c, mem_of_getElem? cAt, d, rank, parent.symm, mem_of_getElem? (getElem?_zip_eq_some.mpr ⟨dAt, rankAt⟩), rfl⟩
  constructor
  · have lengths : found.length = (folderRanks ix dirs).length := by
      rw [folderRanks, length_map, length_gather]
      simpa using congrArg List.length inside
    rw [pathKeys_eq inside, map_zipWith, ← map_uncurry_zip_eq_zipWith]
    nth_rewrite 2 [← map_fst_zip lengths.le]
    rw [map_map]
    rfl
  · intro x xIn y yIn
    obtain ⟨c, cIn, d, r, parent, zipped, rfl⟩ := members x xIn
    obtain ⟨c', cIn', d', r', parent', zipped', rfl⟩ := members y yIn
    have dIn := (of_mem_zip zipped).1
    have order := (ranked d dIn).order
    have shown₁ := shown d dIn
    have shown₂ := shown d' (of_mem_zip zipped').1
    apply packed_fits ordered key (ok.name_live (live c cIn)) (ok.name_live (live c' cIn'))
    · rw [folderPath, folderPath, parent, parent']
      exact (order _ zipped _ zipped' shown₁ shown₂).1
    · rw [folderPath, folderPath, parent, parent']
      exact (order _ zipped' _ zipped shown₂ shown₁).1
    · rw [folderPath, folderPath, parent, parent']
      exact (order _ zipped _ zipped' shown₁ shown₂).2

theorem keyed_fit (ok : ix.Integrity) (ordered : ix.names.Ordered) (live : ∀ c ∈ found, ix.Live c.idx)
    (foldered : sort.key = .path → Foldered ix (found.map Candidate.idx)) :
    (keyed ix sort found).map Candidate.idx = found.map Candidate.idx ∧
      ∀ x ∈ keyed ix sort found, ∀ y ∈ keyed ix sort found, KeysFit ix sort x y := by
  unfold keyed
  split
  case isTrue key => exact (foldered key).pathKeys_fit ok ordered key live
  case isFalse key =>
    refine ⟨by simp, fun x xIn y yIn => ?_⟩
    obtain ⟨c, cIn, rfl⟩ := mem_map.mp xIn
    obtain ⟨c', cIn', rfl⟩ := mem_map.mp yIn
    exact entryKey_fits ordered key (ok.name_live (live c cIn)) (ok.name_live (live c' cIn'))

end Paths

theorem pageBounds_slice {α : Type*} (list : List α) (offset : Nat) (limit : Option Nat) :
    (list.take (pageBounds list.length offset limit).2).drop (pageBounds list.length offset limit).1 =
      (list.drop offset).take (limit.getD list.length) := by
  rw [drop_take]
  have start : list.drop (pageBounds list.length offset limit).1 = list.drop offset := by
    rcases Nat.le_total offset list.length with short | long
    · rw [pageBounds, Nat.min_eq_left short]
    · rw [pageBounds, Nat.min_eq_right long, drop_length, drop_eq_nil_of_le long]
  rw [start, take_eq_take_iff, length_drop]
  cases limit with
  | none =>
    simp only [pageBounds, Option.map_none, Option.getD_none]
    omega
  | some limit =>
    simp only [pageBounds, Option.map_some, Option.getD_some]
    omega

theorem sorted_before {cands : List Candidate} (once : (cands.map Candidate.idx).Nodup)
    (fit : ∀ x ∈ cands, ∀ y ∈ cands, KeysFit ix sort x y) :
    ((cands.mergeSort (candidateLe ix sort)).map Candidate.idx).Pairwise (RowBefore ix sort) := by
  have linear := candidate_linear ix sort
  have perm := mergeSort_perm cands (candidateLe ix sort)
  have apart : (cands.mergeSort (candidateLe ix sort)).Nodup :=
    Nodup.of_map _ ((perm.map Candidate.idx).nodup_iff.mpr once)
  rw [pairwise_map]
  refine ((linear.sorted cands).and apart).imp_of_mem fun {x y} xIn yIn both => ?_
  obtain ⟨le, differ⟩ := both
  apply (fit x (perm.mem_iff.mp xIn) y (perm.mem_iff.mp yIn)).rowBefore
  rw [candidateLe, Ordering.isLE_iff_eq_lt_or_eq_eq] at le
  apply le.resolve_right
  intro tie
  have back : candidateLe ix sort y x = true := by
    have turned : cmpCandidate ix sort y x = (cmpCandidate ix sort x y).swap := Std.OrientedCmp.eq_swap
    rw [candidateLe, turned, tie]
    rfl
  exact differ (linear.antisymm x y (by rw [candidateLe, tie]; rfl) back)

def PageInOrder (ix : VolumeIndex) (req : PageRequest) (found : List Candidate) : Prop :=
  ∃ rows : List EntryIdx, rows.Perm (found.map Candidate.idx) ∧ rows.Pairwise (RowBefore ix req.sort) ∧
    (req.scanPage ix found).refs =
      ((rows.drop req.offset).take (req.limit.getD rows.length)).map fun e => ⟨e, ix.entries.frn e⟩

theorem scanPage_refs (ix : VolumeIndex) (req : PageRequest) (found : List Candidate)
    (same : (keyed ix req.sort found).length = found.length) :
    (req.scanPage ix found).refs =
      ((((keyed ix req.sort found).mergeSort (candidateLe ix req.sort)).drop req.offset).take (req.limit.getD found.length)).map
        fun c => ⟨c.idx, ix.entries.frn c.idx⟩ := by
  have taken : (order ix req.sort found (pageBounds found.length req.offset req.limit).2).take
      (pageBounds found.length req.offset req.limit).2 =
        ((keyed ix req.sort found).mergeSort (candidateLe ix req.sort)).take (pageBounds found.length req.offset req.limit).2 := by
    rw [order, orderTop]
    split
    case isTrue zero => rw [zero, take_zero, take_zero]
    case isFalse => rfl
  have length : ((keyed ix req.sort found).mergeSort (candidateLe ix req.sort)).length = found.length := by
    rw [length_mergeSort, same]
  rw [PageRequest.scanPage, rowsOf, taken, ← length, pageBounds_slice]

/-- The page of any matches is in order, and the integers that stand for sizes and dates in it are exact. -/
theorem page_rows_in_order [Externals] {rootFrn : Frn} (reachable : Reachable rootFrn ix) (req : PageRequest) (found : List Candidate)
    (once : (found.map Candidate.idx).Nodup) (live : ∀ c ∈ found, ix.Live c.idx)
    (foldered : req.sort.key = .path → Foldered ix (found.map Candidate.idx)) :
    PageInOrder ix req found ∧
    (∀ size dir, size ≠ sizeUnknown → (sizeKey (some size) dir).toNat = size.toNat + if dir = .desc then 1 else 0) ∧
    ∀ date dir, date ≠ mtimeUnknown →
      ((mtimeKey (some date) dir).toNat : Int) = date.toInt + 2 ^ 63 - 1 + if dir = .desc then 1 else 0 := by
  refine ⟨?_, fun _ dir known => toNat_sizeKey known dir, fun _ dir known => toNat_mtimeKey known dir⟩
  obtain ⟨same, fit⟩ := keyed_fit reachable.invariant.integrity reachable.tidy.ordered live foldered
  have length : (keyed ix req.sort found).length = found.length := by simpa using congrArg List.length same
  have perm := mergeSort_perm (keyed ix req.sort found) (candidateLe ix req.sort)
  refine ⟨_, same ▸ perm.map Candidate.idx, sorted_before (same ▸ once) fit, ?_⟩
  rw [scanPage_refs ix req found length, length_map, length_mergeSort, length, ← map_drop, ← map_take, map_map]
  rfl

def allByPath : PageRequest := { firstBySize with sort := ⟨.path, .asc⟩, limit := none }

def childRecord (parent frn : UInt64) (attributes : UInt32) (name : Bytes) : ParsedUsnRecord where
  majorVersion := 2
  frn := ⟨frn⟩
  parentFrn := ⟨parent⟩
  usn := 0
  timestampFt := 0
  reason := UsnReason.fileCreate
  attributes := attributes
  name := name
  nameLossy := false

def fileIndex : VolumeIndex :=
  letI := ascii
  folderIndex.insertEnum (childRecord 0x0001000000000006 0x0001000000000007 0 [0x78])

theorem fileIndex_by_path :
    letI := ascii
    Foldered fileIndex [3, 2] ∧ PageInOrder fileIndex allByPath [⟨3, 0⟩, ⟨2, 0⟩] := by
  let _ := ascii
  have reachable : Reachable ntfsRootFrn fileIndex := .step (.insertEnum _) reachable_folderIndex trivial
  have live : ∀ c ∈ ([⟨3, 0⟩, ⟨2, 0⟩] : List Candidate), fileIndex.entries.isTombstone c.idx = false := by decide
  have inside : ∀ e ∈ [3, 2], ∃ p, fileIndex.entries.parent e = some p ∧ (fileIndex.pathOf p []).1 = .ok := by
    simp only [mem_cons, not_mem_nil, or_false]
    rintro e (rfl | rfl)
    · exact ⟨2, by decide, by decide⟩
    · exact ⟨0, by decide, by decide⟩
  have foldered : Foldered fileIndex [3, 2] :=
    ⟨by decide, proper_of_small reachable.invariant.integrity rfl (by decide), inside⟩
  exact ⟨foldered, (page_rows_in_order reachable allByPath _ (by decide) live fun _ => foldered).1⟩

theorem not_pageInOrder {a b : Nat} {dirs : List EntryIdx} (inside : [a, b].map ix.entries.parent = dirs.map some)
    (ranks : folderRanks ix dirs = [r, s]) (le : candidateLe ix allByPath.sort (packed ix a r) (packed ix b s) = true)
    (later : rowOrder ix .path a b ≠ .lt) : ¬ PageInOrder ix allByPath [⟨a, 0⟩, ⟨b, 0⟩] := by
  rintro ⟨rows, perm, sorted, refs⟩
  have parents : ([⟨a, 0⟩, ⟨b, 0⟩] : List Candidate).map (fun c => ix.entries.parent c.idx) = dirs.map some := inside
  have keys : keyed ix allByPath.sort [⟨a, 0⟩, ⟨b, 0⟩] = [packed ix a r, packed ix b s] := by
    show pathKeys ix _ = _
    rw [pathKeys_eq parents, ranks]
    rfl
  rw [scanPage_refs _ _ _ (by rw [keys]; rfl), keys, mergeSort_of_pairwise (by simpa using le)] at refs
  have same : rows = [a, b] := by
    have all : (rows.drop 0).take rows.length = rows := by simp
    have idxs := congrArg (List.map HitRef.idx) refs
    change [a, b] = (((rows.drop 0).take rows.length).map _).map _ at idxs
    rw [all, map_map] at idxs
    exact (idxs.trans (map_id rows)).symm
  rw [same] at sorted
  have before := rel_of_pairwise_cons sorted (mem_singleton.mpr rfl)
  exact later before

def blankIndex : VolumeIndex :=
  letI := ascii
  (((new ntfsRootFrn (.sparse [])).insertEnum (childRecord 0x0005000000000005 0x0001000000000006 fileAttributeDirectory [])).insertEnum
    (childRecord 0x0005000000000005 0x0001000000000007 0 [0x79])).insertEnum
      (childRecord 0x0001000000000006 0x0001000000000008 0 [0x78])

def slashIndex : VolumeIndex :=
  letI := ascii
  (((folderIndex.insertEnum (childRecord 0x0001000000000006 0x0001000000000007 fileAttributeDirectory [0x62])).insertEnum
    (childRecord 0x0005000000000005 0x0001000000000008 fileAttributeDirectory [0x61, 0x5C, 0x62])).insertEnum
      (childRecord 0x0001000000000007 0x0001000000000009 0 [0x79])).insertEnum
        (childRecord 0x0001000000000008 0x000100000000000A 0 [0x78])

theorem slashIndex_ranks : letI := ascii; folderRanks slashIndex [3, 4] = [2, 3] := by
  let _ := ascii
  set fr := (gather slashIndex [3, 4]).1 with gathered
  have nodes : (gather slashIndex [3, 4]).2 = [1, 3] := by decide +kernel
  have count : fr.parent.length = 4 := by decide +kernel
  have below : [0].flatMap fr.childrenOf = [2, 3] := by decide +kernel
  have sorted : [2, 3].Pairwise fun a b => fr.nodeLe slashIndex a b = true := by decide +kernel
  have top : fr.groupsBelow slashIndex [0] = [[2], [3]] := by
    rw [groupsBelow, below, mergeSort_of_pairwise sorted]
    decide +kernel
  have inA : fr.groupsBelow slashIndex [2] = [[1]] := by decide +kernel
  have leaf : fr.groupsBelow slashIndex [1] = [] := by decide +kernel
  have other : fr.groupsBelow slashIndex [3] = [] := by decide +kernel
  have steps : fr.levelSteps slashIndex 1 [[2], [3]] [] = [.folder [2], .below [2] 2, .folder [3], .below [3] 2] := by
    decide +kernel
  have steps' : fr.levelSteps slashIndex 2 [[1]] [] = [.folder [1], .below [1] 3] := by decide +kernel
  have deep : maxPathHops = 4096 := rfl
  rw [folderRanks, nodes, ← gathered]
  simp [ranks, count, walkRanks, top, inA, leaf, other, steps, steps', levelSteps, deep]

/-- A path sort relies on both conditions on folder names. -/
theorem odd_folder_names_misorder :
    letI := ascii
    (Reachable ntfsRootFrn blankIndex ∧ (∀ e ∈ [3, 4], blankIndex.Live e) ∧ (∀ p ∈ [0, 2], (blankIndex.pathOf p []).1 = .ok) ∧
      ¬ PageInOrder blankIndex allByPath [⟨3, 0⟩, ⟨4, 0⟩]) ∧
    Reachable ntfsRootFrn slashIndex ∧ (∀ e ∈ [5, 6], slashIndex.Live e) ∧ (∀ p ∈ [3, 4], (slashIndex.pathOf p []).1 = .ok) ∧
      ¬ PageInOrder slashIndex allByPath [⟨5, 0⟩, ⟨6, 0⟩] := by
  let _ := ascii
  have blank : Reachable ntfsRootFrn blankIndex :=
    .step (.insertEnum _) (.step (.insertEnum _) (.step (.insertEnum _) (.new fun _ => rfl) trivial) trivial) trivial
  have slash : Reachable ntfsRootFrn slashIndex :=
    .step (.insertEnum _) (.step (.insertEnum _) (.step (.insertEnum _) (.step (.insertEnum _) reachable_folderIndex trivial)
      trivial) trivial) trivial
  have live : ∀ e ∈ [3, 4], blankIndex.entries.isTombstone e = false := by decide +kernel
  have live' : ∀ e ∈ [5, 6], slashIndex.entries.isTombstone e = false := by decide +kernel
  refine ⟨⟨blank, live, by decide +kernel, ?_⟩, slash, live', by decide +kernel, ?_⟩
  · have parents : [3, 4].map blankIndex.entries.parent = [0, 2].map some := by decide +kernel
    have ranks : folderRanks blankIndex [0, 2] = [0, 1] := by decide +kernel
    exact not_pageInOrder parents ranks (by decide +kernel) (by decide +kernel)
  · have parents : [5, 6].map slashIndex.entries.parent = [3, 4].map some := by decide +kernel
    exact not_pageInOrder parents slashIndex_ranks (by decide +kernel) (by decide +kernel)

end Query

end Goz
