import Goz.Core.Utf16
import Goz.Daemon.Paging
import Goz.Index.Paths

namespace Goz.Proto

open Wtf8 Daemon List

variable {n : Nat}

structure BinError where
  text : String
  deriving DecidableEq, Repr

abbrev Reader := StateT Bytes (Except BinError)

namespace Reader

variable {α β : Type}

/-- The next `n` bytes. The position cannot overflow, as the buffer is in memory. -/
def bytes (n : Nat) : Reader Bytes := fun left => if n ≤ left.length then .ok (left.take n, left.drop n) else .error ⟨"truncated"⟩

def u8 : Reader UInt8
  | b :: left => .ok (b, left)
  | [] => .error ⟨"truncated"⟩

def u32 : Reader UInt32 := do
  let word ← bytes 4
  pure (u32At word 0)

def u64 : Reader UInt64 := do
  let word ← bytes 8
  pure (u64At word 0)

def i64 : Reader Int64 := do
  let word ← bytes 8
  pure (i64At word 0)

def whenSet (set : Bool) (read : Reader α) : Reader (Option α) :=
  if set then do
    let value ← read
    pure (some value)
  else pure none

section Reads

variable {read : Reader α} {next : α → Reader β} {left rest : Bytes} {value : α}

theorem bind_ok (first : read left = .ok (value, rest)) : (read >>= next) left = next value rest := by
  show (read left >>= fun step => next step.1 step.2) = _
  rw [first]
  rfl

theorem bytes_append (list rest : Bytes) (length : list.length = n) : bytes n (list ++ rest) = .ok (list, rest) := by
  subst length
  rw [bytes, if_pos (by simp), take_left, drop_left]

theorem u32_append (n : Nat) (rest : Bytes) : u32 (leBytes 4 n ++ rest) = .ok (UInt32.ofNat n, rest) := by
  have word : u32At (leBytes 4 n) 0 = UInt32.ofNat n := by
    rw [u32At, show leBytes 4 n = LittleEndian.bytes 4 n from (LittleEndian.bytes_eq_map 4 n).symm, LittleEndian.word_bytes_self]
    apply UInt32.toNat_inj.mp
    rw [UInt32.toNat_ofNat', UInt32.toNat_ofNat']
    omega
  rw [u32, bind_ok (bytes_append _ rest (length_leBytes 4 n)), word]
  rfl

theorem u64At_leBytes (v : UInt64) : u64At (leBytes 8 v.toNat) 0 = v := by
  rw [show leBytes 8 v.toNat = Goz.u64 v from (LittleEndian.bytes_eq_map 8 v.toNat).symm, u64At_u64]

theorem u64_append (v : UInt64) (rest : Bytes) : u64 (leBytes 8 v.toNat ++ rest) = .ok (v, rest) := by
  rw [u64, bind_ok (bytes_append _ rest (length_leBytes 8 v.toNat)), u64At_leBytes]
  rfl

theorem i64_append (v : Int64) (rest : Bytes) : i64 (leBytes 8 v.toUInt64.toNat ++ rest) = .ok (v, rest) := by
  rw [i64, bind_ok (bytes_append _ rest (length_leBytes 8 _)), i64At, u64At_leBytes]
  rfl

theorem whenSet_append {encode : α → Bytes} (one : ∀ value rest, read (encode value ++ rest) = .ok (value, rest)) (field : Option α)
    (rest : Bytes) : whenSet field.isSome read ((field.map encode).getD [] ++ rest) = .ok (field, rest) := by
  cases field with
  | none => rfl
  | some value =>
    show (read >>= fun value => pure (some value)) (encode value ++ rest) = _
    rw [bind_ok (one value rest)]
    rfl

end Reads

end Reader

structure ResultItem where
  path : String
  pathU16 : Option (List UInt16)
  size : Option UInt64
  mtimeFt : Option Int64
  isDir : Bool
  deriving DecidableEq, Repr

structure QueryResults where
  total : UInt64
  items : List ResultItem
  more : Bool
  volumesIncomplete : Bool
  metadataPending : Bool
  generation : UInt64
  totalSize : Option UInt64
  deriving DecidableEq, Repr

def readItem : Reader ResultItem := do
  let plen ← Reader.u32
  let path ← Reader.bytes plen.toNat
  let iflags ← Reader.u8
  let size ← Reader.whenSet (iflags &&& iflagHasSize ≠ 0) Reader.u64
  let mtime ← Reader.whenSet (iflags &&& iflagHasMtime ≠ 0) Reader.i64
  pure {
    path := toStringLossy path
    pathU16 := if (fromUtf8 path).isNone then some (toUtf16 path) else none
    size := size
    mtimeFt := mtime
    isDir := iflags &&& iflagIsDir ≠ 0 }

def readItems : Nat → Reader (List ResultItem)
  | 0 => pure []
  | count + 1 => do
    let item ← readItem
    let items ← readItems count
    pure (item :: items)

def readResults : Reader QueryResults := do
  let total ← Reader.u64
  let generation ← Reader.u64
  let flags ← Reader.u8
  let count ← Reader.u32
  let totalSize ← Reader.whenSet (flags &&& flagTotalSize ≠ 0) Reader.u64
  let items ← readItems count.toNat
  pure {
    total := total
    items := items
    more := flags &&& flagMore ≠ 0
    volumesIncomplete := flags &&& flagVolumesIncomplete ≠ 0
    metadataPending := flags &&& flagMetadataPending ≠ 0
    generation := generation
    totalSize := totalSize }

def decodeResultsPayload (body : Bytes) : Except BinError QueryResults := (readResults.run body).map Prod.fst

/-- A row before it is sent: the mount prefix, the names from the topmost folder down, and what else is known. -/
structure WireRow where
  mount : List Char
  names : List (List UInt16)
  isDir : Bool
  size : Option UInt64
  mtime : Option Int64

namespace WireRow

variable (row : WireRow)

def path : Bytes := encodeChars row.mount ++ (row.names.map fun name => (fromUtf16 name).1).foldl VolumeIndex.joinPath []

def units : List UInt16 := (row.mount.map Char.toNat).flatMap codeUnits ++ row.names.foldl (join 0x5C) []

def push (out : Bytes) : Bytes := pushItem out row.path row.isDir row.size row.mtime

end WireRow

structure PageHeader where
  total : UInt64
  generation : UInt64
  more : Bool
  volumesIncomplete : Bool
  metadataPending : Bool
  totalSize : Option UInt64

def PageHeader.summary (header : PageHeader) : Summary where
  total := header.total.toNat
  volumesIncomplete := header.volumesIncomplete
  metadataPending := header.metadataPending
  totalSize := header.totalSize.map UInt64.toNat

def encodePage (header : PageHeader) (rows : List WireRow) : Bytes :=
  let start := pushResultsHeader [] header.summary header.generation.toNat false 0
  patchResultsHeader (rows.foldl (fun out row => row.push out) start) header.more rows.length

structure WireRow.Carries (row : WireRow) (item : ResultItem) : Prop where
  isDir : item.isDir = row.isDir
  size : item.size = row.size
  mtime : item.mtimeFt = row.mtime
  lossy : item.pathU16.isSome = true ↔ ∃ name ∈ row.names, Unpaired name
  exact_ : ∀ units, item.pathU16 = some units → units = row.units
  text : item.pathU16 = none → (item.path.toList.map Char.toNat).flatMap codeUnits = row.units

structure PageHeader.Carries (header : PageHeader) (rows : List WireRow) (results : QueryResults) : Prop where
  total : results.total = header.total
  generation : results.generation = header.generation
  more : results.more = header.more
  volumesIncomplete : results.volumesIncomplete = header.volumesIncomplete
  metadataPending : results.metadataPending = header.metadataPending
  totalSize : results.totalSize = header.totalSize
  items : Forall₂ WireRow.Carries rows results.items

theorem push_eq (row : WireRow) (out : Bytes) : row.push out = out ++ row.push [] := by simp [WireRow.push, pushItem]

theorem foldl_push (rows : List WireRow) (out : Bytes) :
    rows.foldl (fun out row => row.push out) out = out ++ rows.flatMap fun row => row.push [] := by
  induction rows generalizing out with
  | nil => simp
  | cons row rest ih => rw [foldl_cons, ih, push_eq, append_assoc, flatMap_cons]

def decodedItem (path : Bytes) (isDir : Bool) (size : Option UInt64) (mtime : Option Int64) : ResultItem where
  path := toStringLossy path
  pathU16 := if (fromUtf8 path).isNone then some (toUtf16 path) else none
  size := size
  mtimeFt := mtime
  isDir := isDir

theorem readItem_push (row : WireRow) (short : row.path.length < 2 ^ 32) (rest : Bytes) :
    readItem (row.push [] ++ rest) = .ok (decodedItem row.path row.isDir row.size row.mtime, rest) := by
  have length : (UInt32.ofNat row.path.length).toNat = row.path.length := UInt32.toNat_ofNat_of_lt' short
  have sized : ∀ a b c : Bool, decide ((bit iflagIsDir a ||| bit iflagHasSize b ||| bit iflagHasMtime c) &&& iflagHasSize ≠ 0) = b := by
    decide
  have timed : ∀ a b c : Bool, decide ((bit iflagIsDir a ||| bit iflagHasSize b ||| bit iflagHasMtime c) &&& iflagHasMtime ≠ 0) = c := by
    decide
  have folder : ∀ a b c : Bool, decide ((bit iflagIsDir a ||| bit iflagHasSize b ||| bit iflagHasMtime c) &&& iflagIsDir ≠ 0) = a := by
    decide
  simp only [WireRow.push, pushItem, nil_append, append_assoc]
  rw [readItem, Reader.bind_ok (Reader.u32_append _ _), length, Reader.bind_ok (Reader.bytes_append _ _ rfl), singleton_append,
    Reader.bind_ok rfl, sized, Reader.bind_ok (Reader.whenSet_append Reader.u64_append _ _), timed,
    Reader.bind_ok (Reader.whenSet_append Reader.i64_append _ _), folder]
  rfl

theorem readItems_push {rows : List WireRow} (short : ∀ row ∈ rows, row.path.length < 2 ^ 32) (rest : Bytes) :
    readItems rows.length ((rows.flatMap fun row => row.push []) ++ rest) =
      .ok (rows.map fun row => decodedItem row.path row.isDir row.size row.mtime, rest) := by
  induction rows with
  | nil => rfl
  | cons row rows ih =>
    rw [flatMap_cons, append_assoc, length_cons, readItems,
      Reader.bind_ok (readItem_push row (short row (mem_cons_self ..)) _),
      Reader.bind_ok (ih fun other mem => short other (mem_cons_of_mem _ mem))]
    rfl

def PageHeader.body (header : PageHeader) (count : Nat) : Bytes :=
  leBytes 8 header.total.toNat ++ (leBytes 8 header.generation.toNat ++
    ((bit flagMore header.more ||| bit flagVolumesIncomplete header.volumesIncomplete |||
      bit flagMetadataPending header.metadataPending ||| bit flagTotalSize header.totalSize.isSome) ::
        (leBytes 4 count ++ (header.totalSize.map fun size => leBytes 8 size.toNat).getD [])))

theorem patchResultsHeader_eq {front number : Bytes} (flags : UInt8) (tail : Bytes) (start : front.length = 17) (width : number.length = 4)
    (more : Bool) (count : Nat) : patchResultsHeader (front ++ flags :: (number ++ tail)) more count =
      front ++ (if more then flags ||| flagMore else flags &&& ~~~flagMore) :: (leBytes 4 count ++ tail) := by
  have found : (front ++ flags :: (number ++ tail)).getD 17 0 = flags := by simp [start]
  have kept : (front ++ flags :: (number ++ tail)).take 17 = front := take_left' start
  have past : (front ++ flags :: (number ++ tail)).drop 22 = tail := by
    have split : front ++ flags :: (number ++ tail) = (front ++ flags :: number) ++ tail := by simp
    rw [split, drop_left' (by simp [start, width])]
  rw [patchResultsHeader, found, kept, past]
  simp

theorem encodePage_eq (header : PageHeader) (rows : List WireRow) :
    encodePage header rows = respTagResults :: (header.body rows.length ++ rows.flatMap fun row => row.push []) := by
  have patched : ∀ m v p t : Bool,
      (if m then (bit flagMore false ||| bit flagVolumesIncomplete v ||| bit flagMetadataPending p ||| bit flagTotalSize t) ||| flagMore
        else (bit flagMore false ||| bit flagVolumesIncomplete v ||| bit flagMetadataPending p ||| bit flagTotalSize t) &&& ~~~flagMore) =
      bit flagMore m ||| bit flagVolumesIncomplete v ||| bit flagMetadataPending p ||| bit flagTotalSize t := by decide
  have start : (respTagResults :: (leBytes 8 header.total.toNat ++ leBytes 8 header.generation.toNat)).length = 17 := by simp
  have sizes : ((header.totalSize.map UInt64.toNat).map (leBytes 8)).getD [] =
      (header.totalSize.map fun size => leBytes 8 size.toNat).getD [] := by
    rw [Option.map_map]
    rfl
  have marked : (header.totalSize.map UInt64.toNat).isSome = header.totalSize.isSome := Option.isSome_map
  have whole := patchResultsHeader_eq
    (bit flagMore false ||| bit flagVolumesIncomplete header.volumesIncomplete ||| bit flagMetadataPending header.metadataPending |||
      bit flagTotalSize header.totalSize.isSome)
    ((header.totalSize.map fun size => leBytes 8 size.toNat).getD [] ++ rows.flatMap fun row => row.push []) start (length_leBytes 4 0)
    header.more rows.length
  rw [patched] at whole
  simp only [encodePage, foldl_push, pushResultsHeader, PageHeader.summary, sizes, marked, PageHeader.body]
  simpa using whole

theorem decode_body (header : PageHeader) {count : Nat} (few : count < 2 ^ 32) {list rest : Bytes} {items : List ResultItem}
    (read : readItems count list = .ok (items, rest)) :
    decodeResultsPayload (header.body count ++ list) = .ok {
      total := header.total
      items := items
      more := header.more
      volumesIncomplete := header.volumesIncomplete
      metadataPending := header.metadataPending
      generation := header.generation
      totalSize := header.totalSize } := by
  have number : (UInt32.ofNat count).toNat = count := UInt32.toNat_ofNat_of_lt' few
  have tested : ∀ m v p t : Bool,
      let flags := bit flagMore m ||| bit flagVolumesIncomplete v ||| bit flagMetadataPending p ||| bit flagTotalSize t
      decide (flags &&& flagTotalSize ≠ 0) = t ∧ decide (flags &&& flagMore ≠ 0) = m ∧
        decide (flags &&& flagVolumesIncomplete ≠ 0) = v ∧ decide (flags &&& flagMetadataPending ≠ 0) = p := by decide
  obtain ⟨sized, more, incomplete, pending⟩ :=
    tested header.more header.volumesIncomplete header.metadataPending header.totalSize.isSome
  rw [decodeResultsPayload, PageHeader.body]
  simp only [append_assoc, cons_append]
  show (readResults _).map Prod.fst = _
  rw [readResults, Reader.bind_ok (Reader.u64_append _ _), Reader.bind_ok (Reader.u64_append _ _), Reader.bind_ok rfl,
    Reader.bind_ok (Reader.u32_append _ _), sized, Reader.bind_ok (Reader.whenSet_append Reader.u64_append _ _), number,
    Reader.bind_ok read, more, incomplete, pending]
  rfl

section Paths

variable (row : WireRow)

/-- The code points of a path. None of them comes from two names, as names are converted one by one. -/
def WireRow.points : List CodePoint := row.mount.map Char.toNat ++ (row.names.map fun name => (utf16CodePoints name).1).foldl (join 0x5C) []

theorem encodeCodePoint_ne_nil (cp : CodePoint) : encodeCodePoint cp ≠ [] := by
  unfold encodeCodePoint
  split
  · simp
  · split
    · simp
    · split <;> simp

theorem path_eq : row.path = encode row.points := by
  have joined : encode ((row.names.map fun name => (utf16CodePoints name).1).foldl (join 0x5C) []) =
      (row.names.map fun name => (fromUtf16 name).1).foldl (join 0x5C) [] := by
    rw [encode, flatMap_foldl_join encodeCodePoint_ne_nil (show encodeCodePoint 0x5C = [0x5C] from rfl), map_map]
    rfl
  rw [WireRow.path, WireRow.points, encode_append, joined]
  rfl

theorem points_units : row.points.flatMap codeUnits = row.units := by
  have names : (row.names.map fun name => (utf16CodePoints name).1).map (·.flatMap codeUnits) = row.names := by
    rw [map_map]
    exact map_id'' flatMap_codeUnits _
  rw [WireRow.points, flatMap_append, flatMap_foldl_join codeUnits_ne_nil (show codeUnits 0x5C = [0x5C] from rfl), names]
  rfl

theorem points_le : ∀ cp ∈ row.points, cp ≤ 0x10FFFF := by
  intro cp mem
  rcases mem_append.mp mem with mount | joined
  · obtain ⟨c, -, rfl⟩ := mem_map.mp mount
    exact toNat_le c
  · rcases mem_foldl_join joined with nowhere | rfl | ⟨points, there, inside⟩
    · cases nowhere
    · decide
    · obtain ⟨name, -, rfl⟩ := mem_map.mp there
      exact utf16CodePoints_le name cp inside

theorem points_surrogate : row.points.any isSurrogate = true ↔ ∃ name ∈ row.names, Unpaired name := by
  rw [any_eq_true]
  constructor
  · rintro ⟨cp, mem, surrogate⟩
    rcases mem_append.mp mem with mount | joined
    · obtain ⟨c, -, rfl⟩ := mem_map.mp mount
      rw [isSurrogate_toNat] at surrogate
      cases surrogate
    · rcases mem_foldl_join joined with nowhere | rfl | ⟨points, there, inside⟩
      · cases nowhere
      · cases surrogate
      · obtain ⟨name, named, rfl⟩ := mem_map.mp there
        refine ⟨name, named, (utf16CodePoints_marks name).mp ?_⟩
        rw [utf16CodePoints_lossy]
        exact any_eq_true.mpr ⟨cp, inside, surrogate⟩
  · rintro ⟨name, named, unpaired⟩
    have marked := (utf16CodePoints_marks name).mpr unpaired
    rw [utf16CodePoints_lossy] at marked
    obtain ⟨cp, inside, surrogate⟩ := any_eq_true.mp marked
    refine ⟨cp, mem_append_right _ (mem_foldl_join_of_mem (.inr ⟨_, mem_map_of_mem named, inside⟩)), surrogate⟩

theorem carries_decodedItem : row.Carries (decodedItem row.path row.isDir row.size row.mtime) := by
  have utf8 := fromUtf8_encode (points_le row)
  rw [← path_eq] at utf8
  have utf16 : toUtf16 row.path = row.units := by rw [toUtf16, path_eq, codePoints_encode (points_le row), points_units]
  cases lossy : row.points.any isSurrogate with
  | true =>
    rw [lossy, if_pos rfl] at utf8
    have kept : (decodedItem row.path row.isDir row.size row.mtime).pathU16 = some row.units := by simp [decodedItem, utf8, utf16]
    refine ⟨rfl, rfl, rfl, ?_, ?_, ?_⟩
    · rw [kept]
      exact iff_of_true rfl ((points_surrogate row).mp lossy)
    · intro units same
      exact Option.some.inj (same.symm.trans kept)
    · rw [kept]
      nofun
  | false =>
    rw [lossy, if_neg Bool.false_ne_true] at utf8
    have left : (decodedItem row.path row.isDir row.size row.mtime).pathU16 = none := by simp [decodedItem, utf8]
    have text : (decodedItem row.path row.isDir row.size row.mtime).path.toList = row.points.filterMap fromU32 := by
      simp [decodedItem, toStringLossy, utf8]
    refine ⟨rfl, rfl, rfl, ?_, ?_, ?_⟩
    · rw [left, ← points_surrogate, lossy]
      simp
    · rw [left]
      nofun
    · intro _
      rw [text, map_toNat_filterMap (points_le row) lossy, points_units]

end Paths

/-- Rows survive the wire: the header, and every path to its last code unit. -/
theorem pages_carry_rows (header : PageHeader) (rows : List WireRow) (few : rows.length < 2 ^ 32)
    (short : ∀ row ∈ rows, row.path.length < 2 ^ 32) :
    ∃ results, decodeResultsPayload ((encodePage header rows).drop 1) = .ok results ∧ header.Carries rows results := by
  have read := readItems_push short []
  rw [append_nil] at read
  rw [encodePage_eq, drop_one, tail_cons]
  refine ⟨_, decode_body header few read, rfl, rfl, rfl, rfl, rfl, rfl, ?_⟩
  simp only [forall₂_map_right_iff, forall₂_same]
  intro row _
  exact carries_decodedItem row

/-- A page of one row of a volume `C:`, with a lone surrogate in the name of a folder. -/
theorem lone_surrogate_carried :
    let header : PageHeader := ⟨3, 7, true, false, true, some 9⟩
    let row : WireRow := ⟨['C', ':', '\\'], [[0x61, 0xD800], [0x62]], false, some 5, some (-1)⟩
    row.path.length < 2 ^ 32 ∧ ∃ results, decodeResultsPayload ((encodePage header [row]).drop 1) = .ok results ∧
      header.Carries [row] results ∧ row.units = [0x43, 0x3A, 0x5C, 0x61, 0xD800, 0x5C, 0x62] := by
  intro header row
  have short : row.path.length < 2 ^ 32 := by decide
  obtain ⟨results, decoded, carries⟩ := pages_carry_rows header [row] (by decide) (by simpa using short)
  exact ⟨short, results, decoded, carries, by decide⟩

def repeatedRow (n : Nat) : WireRow := ⟨[], [replicate n 0x61], false, none, none⟩

theorem utf16CodePoints_replicate (n : Nat) : (utf16CodePoints (replicate n 0x61)).1 = replicate n 0x61 := by
  induction n with
  | zero => rfl
  | succ n ih =>
    cases n with
    | zero => rfl
    | succ n =>
      have plain : isHighSurrogate 0x61 = false := by decide
      rw [replicate_succ, replicate_succ, utf16CodePoints, plain, ← replicate_succ]
      simp only [Bool.false_and, Bool.false_eq_true, if_false, ih]
      rfl

theorem path_repeatedRow (n : Nat) : (repeatedRow n).path = replicate n 0x61 := by
  have points : (repeatedRow n).points = replicate n 0x61 := utf16CodePoints_replicate n
  have bytes : ∀ n, encode (replicate n 0x61) = replicate n 0x61 := by
    intro n
    induction n with
    | zero => rfl
    | succ n ih =>
      rw [replicate_succ, replicate_succ, ← ih]
      rfl
  rw [path_eq, points, bytes]

theorem readItem_repeatedRow (wraps : UInt32.ofNat (n + 1) = 0) :
    ∃ rest, readItem ((repeatedRow (n + 1)).push []) = .ok (⟨"", none, none, none, true⟩, rest) := by
  refine ⟨replicate n 0x61 ++ [0], ?_⟩
  have pushed : (repeatedRow (n + 1)).push [] = leBytes 4 (n + 1) ++ 0x61 :: (replicate n 0x61 ++ [0]) := by
    rw [WireRow.push, path_repeatedRow]
    simp [pushItem, repeatedRow, replicate_succ, bit]
  rw [pushed, readItem, Reader.bind_ok (Reader.u32_append _ _), wraps]
  rfl

/-- A path of 2^32 bytes does not survive: its length field comes to 0. -/
theorem long_path_lost :
    ∃ results, decodeResultsPayload ((encodePage ⟨1, 0, false, false, false, none⟩ [repeatedRow (2 ^ 32)]).drop 1) = .ok results ∧
      ¬ PageHeader.Carries ⟨1, 0, false, false, false, none⟩ [repeatedRow (2 ^ 32)] results := by
  have wraps : UInt32.ofNat (2 ^ 32 - 1 + 1) = 0 := by decide
  obtain ⟨rest, first⟩ := readItem_repeatedRow wraps
  have read : readItems 1 ((repeatedRow (2 ^ 32 - 1 + 1)).push []) = .ok ([⟨"", none, none, none, true⟩], rest) := by
    rw [readItems, Reader.bind_ok first]
    rfl
  have decoded := decode_body ⟨1, 0, false, false, false, none⟩ (show 1 < 2 ^ 32 by decide) read
  rw [encodePage_eq, drop_one, tail_cons, flatMap_singleton]
  refine ⟨_, decoded, fun carries => ?_⟩
  have folder := (forall₂_cons.mp carries.items).1.isDir
  cases folder

end Goz.Proto
