import Goz.Layout.Parse

namespace Goz.Layout

open Reading List Option

variable {off len : Nat} {store : Span → Bytes} {σ : Type} {kind : ChainKind} {body : Nat → Bytes → σ → Walk σ}
variable {buf : Bytes}
variable {fuel base : Nat}

section Safety

def Within (len : Nat) (span : Span) : Prop := span.hi ≤ len

theorem reads_followOffset (base : Nat) (rel : UInt32) (minRel : Nat) (what : String) :
    Reads store (Within len) (followOffset len base rel minRel what) := by
  apply Reads.require_bind
  intro _
  apply Reads.require_bind
  intro _
  exact .pure _

theorem reads_readBytes (offset need : Nat) (what : String) : Reads store (Within len) (readBytes len offset need what) := by
  unfold readBytes
  split
  · exact .pure _
  · apply Reads.require_bind
    intro _
    apply Reads.require_bind
    intro fits
    exact Reads.fetch fits

variable (inside : ∀ off raw state, Reads store (Within len) (body off raw state))
include inside

theorem reads_walkChain (fuel off : Nat) (state : σ) :
    Reads store (Within len) (walkChain len kind body fuel off state) := by
  induction fuel generalizing off state with
  | zero => exact .pure _
  | succ fuel ih =>
    unfold walkChain
    apply (reads_readBytes _ _ _).bind
    intro raw _
    apply (inside _ _ _).bind
    intro state _
    dsimp only
    split
    · exact .pure _
    · apply (reads_followOffset _ _ _ _).bind
      intro off _
      exact ih off state

theorem reads_followChain (fuel base : Nat) (first : UInt32)
    (what : String) (start : σ) : Reads store (Within len) (followChain len kind body fuel base first what start) := by
  unfold followChain
  split
  · exact .pure _
  · apply (reads_followOffset _ _ _ _).bind
    intro off _
    exact reads_walkChain inside _ _ _

omit inside

theorem reads_parseName (off : Nat) (raw : Bytes) (names : List LayoutName) :
    Reads store (Within len) (parseName len off raw names) := by
  apply Reads.require_bind
  intro _
  apply Reads.require_bind
  intro _
  apply (reads_readBytes _ _ _).bind
  intro _ _
  exact .pure _

theorem reads_parseStream (isDir : Bool) (off : Nat) (raw : Bytes) (size : Option UInt64) :
    Reads store (Within len) (parseStream len isDir off raw size) := by
  apply Reads.require_bind
  intro _
  apply (reads_readBytes _ _ _).bind
  intro _ _
  exact .pure _

theorem reads_parseInfo (base : Nat) (first declared : UInt32) : Reads store (Within len) (parseInfo len base first declared) := by
  unfold parseInfo
  split
  · exact .pure _
  · apply (reads_followOffset _ _ _ _).bind
    intro off _
    dsimp only
    generalize (if declared = 0 then infoEntryLegacyLen else declared.toNat) = available
    split
    · apply (reads_readBytes _ _ _).bind
      intro _ _
      exact .pure _
    · exact .pure _

theorem reads_addFile (fuel off : Nat) (entry : Bytes) (found : List LayoutFile × Nat) :
    Reads store (Within len) (addFile len fuel off entry found) := by
  have file : Reads store (Within len) (parseFile len fuel off entry) := by
    apply (reads_followChain reads_parseName _ _ _ _ _).bind
    intro _ _
    apply (reads_parseInfo _ _ _).bind
    intro _ _
    apply (reads_followChain (reads_parseStream _) _ _ _ _ _).bind
    intro _ _
    exact .pure _
  apply file.bind
  intro _ _
  apply Reads.require_bind
  intro _
  exact .pure _

theorem reads_walkLayout (fuel : Nat) : Reads store (Within len) (walkLayout len fuel) := by
  unfold walkLayout
  split
  · exact .pure _
  · apply (reads_readBytes _ _ _).bind
    intro header _
    split
    · exact .pure _
    · apply (reads_followOffset _ _ _ _).bind
      intro off _
      apply (reads_walkChain (reads_addFile fuel) _ _ _).bind
      intro _ _
      exact .pure _

end Safety

section Loops

variable {body' : Nat → Bytes → σ → Walk σ}

theorem run_followOffset {minRel next : Nat} {rel : UInt32} {what : String}
    (ran : (followOffset len base rel minRel what).run store = .ok next) : minRel ≤ rel.toNat ∧ next = base + rel.toNat ∧ next < len := by
  obtain ⟨clear, ran⟩ := run_require_bind_eq_ok.mp ran
  obtain ⟨inside, ran⟩ := run_require_bind_eq_ok.mp ran
  obtain rfl := Except.ok.inj ran
  exact ⟨clear, rfl, inside⟩

theorem run_walkChain_keeps {P : σ → Prop} (step : ∀ {off raw state state'}, P state → (body off raw state).run store = .ok state' → P state') {state result : σ} (start : P state) (ran : (walkChain len kind body fuel off state).run store = .ok result) :
    P result := by
  induction fuel generalizing off state with
  | zero => exact Except.ok.inj ran ▸ start
  | succ fuel ih =>
    obtain ⟨raw, -, ran⟩ := run_bind_eq_ok.mp ran
    obtain ⟨state', stepped, ran⟩ := run_bind_eq_ok.mp ran
    have kept := step start stepped
    dsimp only at ran
    split at ran
    · exact Except.ok.inj ran ▸ kept
    · obtain ⟨off', -, ran⟩ := run_bind_eq_ok.mp ran
      exact ih kept ran

theorem trace_walkChain_fuel (some_ : 0 < kind.size)
    (same : ∀ off raw state, (body' off raw state).trace store = (body off raw state).trace store) (enough : len ≤ off + fuel) (inside : off < len) (more : Nat) (state : σ) :
    (walkChain len kind body' (fuel + more) off state).trace store = (walkChain len kind body fuel off state).trace store := by
  induction fuel generalizing off state with
  | zero => omega
  | succ fuel ih =>
    rw [Nat.succ_add, walkChain, walkChain]
    apply trace_bind rfl
    intro raw _
    apply trace_bind (same off raw state)
    intro state' _
    dsimp only
    split
    · rfl
    · apply trace_bind rfl
      intro next ran
      obtain ⟨clear, rfl, bound⟩ := run_followOffset ran
      exact ih (by omega) bound state'

theorem trace_followChain_fuel (some_ : 0 < kind.size) (enough : len ≤ fuel) (more base : Nat) (first : UInt32)
    (what : String) (start : σ) :
    (followChain len kind body (fuel + more) base first what start).trace store =
      (followChain len kind body fuel base first what start).trace store := by
  unfold followChain
  split
  · rfl
  · apply trace_bind rfl
    intro off ran
    obtain ⟨-, -, bound⟩ := run_followOffset ran
    exact trace_walkChain_fuel some_ (fun _ _ _ => rfl) (by omega) bound more start

theorem trace_addFile_fuel (enough : len ≤ fuel) (more off : Nat) (entry : Bytes) (found : List LayoutFile × Nat) :
    (addFile len (fuel + more) off entry found).trace store = (addFile len fuel off entry found).trace store := by
  have file : (parseFile len (fuel + more) off entry).trace store = (parseFile len fuel off entry).trace store := by
    apply trace_bind (trace_followChain_fuel (by decide) enough more _ _ _ _)
    intro names _
    apply trace_bind rfl
    intro mtimeFt _
    apply trace_bind (trace_followChain_fuel (by decide) enough more _ _ _ _)
    intro size _
    rfl
  apply trace_bind file
  intro file _
  rfl

theorem trace_walkLayout_fuel (more : Nat) : (walkLayout len (len + more)).trace store = (walkLayout len len).trace store := by
  unfold walkLayout
  split
  · rfl
  · apply trace_bind rfl
    intro header _
    split
    · rfl
    · apply trace_bind rfl
      intro off ran
      obtain ⟨-, -, bound⟩ := run_followOffset ran
      apply trace_bind (trace_walkChain_fuel (by decide) (trace_addFile_fuel (le_refl len) more) (Nat.le_add_left ..) bound more ([], 0))
      intro found _
      rfl

end Loops

section Names

variable {entry : Bytes}

def ShortNames (names : List LayoutName) : Prop := ∀ name ∈ names, name.name.length ≤ nameBytesMax

theorem run_parseName {raw : Bytes} {names names' : List LayoutName} (short : ShortNames names)
    (ran : (parseName len off raw names).run (Span.slice buf) = .ok names') : ShortNames names' := by
  obtain ⟨limit, ran⟩ := run_require_bind_eq_ok.mp ran
  obtain ⟨-, ran⟩ := run_require_bind_eq_ok.mp ran
  obtain ⟨nameBytes, read, ran⟩ := run_bind_eq_ok.mp ran
  obtain rfl := Except.ok.inj ran
  have taken : nameBytes.length ≤ (u32At raw 16).toNat := by
    unfold readBytes at read
    split at read
    · rw [← Except.ok.inj read]
      exact Nat.zero_le _
    · obtain ⟨-, read⟩ := run_require_bind_eq_ok.mp read
      obtain ⟨-, read⟩ := run_require_bind_eq_ok.mp read
      rw [← Except.ok.inj read]
      exact (Span.length_slice_le buf _).trans (by simp)
  have few := length_utf16Units nameBytes
  have long := Wtf8.length_fromUtf16 (utf16Units nameBytes)
  simp only [maxNameUtf16Bytes] at limit
  intro name mem
  rcases mem_append.mp mem with before | here
  · exact short name before
  · rw [mem_singleton.mp here]
    show (Wtf8.fromUtf16 (utf16Units nameBytes)).1.length ≤ 765
    omega

theorem run_parseFile {file : LayoutFile}
    (ran : (parseFile len fuel off entry).run (Span.slice buf) = .ok file) : ShortNames file.names := by
  obtain ⟨names, named, ran⟩ := run_bind_eq_ok.mp ran
  obtain ⟨_, -, ran⟩ := run_bind_eq_ok.mp ran
  obtain ⟨_, -, ran⟩ := run_bind_eq_ok.mp ran
  obtain rfl := Except.ok.inj ran
  have none_ : ShortNames [] := by
    intro name mem
    cases mem
  unfold followChain at named
  split at named
  · exact Except.ok.inj named ▸ none_
  · obtain ⟨_, -, named⟩ := run_bind_eq_ok.mp named
    exact run_walkChain_keeps run_parseName none_ named

/-- What the walk knows of the files so far: how many names they have, that they have room, and that they are short. -/
def Kept (len : Nat) (found : List LayoutFile × Nat) : Prop :=
  (found.1.map (·.names.length)).sum = found.2 ∧ found.2 ≤ len / nameEntryLen ∧ ∀ file ∈ found.1, ShortNames file.names

theorem run_addFile {found found' : List LayoutFile × Nat} (kept : Kept len found)
    (ran : (addFile len fuel off entry found).run (Span.slice buf) = .ok found') : Kept len found' := by
  obtain ⟨file, parsed, ran⟩ := run_bind_eq_ok.mp ran
  obtain ⟨room, ran⟩ := run_require_bind_eq_ok.mp ran
  obtain rfl := Except.ok.inj ran
  refine ⟨?_, room, ?_⟩
  · simp [kept.1]
  · intro other mem
    rcases mem_append.mp mem with before | here
    · exact kept.2.2 other before
    · rw [mem_singleton.mp here]
      exact run_parseFile parsed

theorem run_walkLayout {files : List LayoutFile} (ran : (walkLayout len fuel).run (Span.slice buf) = .ok files) :
    Kept len (files, (files.map (·.names.length)).sum) := by
  have none_ : Kept len ([], 0) := ⟨rfl, Nat.zero_le _, by intro file mem; cases mem⟩
  unfold walkLayout at ran
  split at ran
  · exact Except.ok.inj ran ▸ none_
  · obtain ⟨header, -, ran⟩ := run_bind_eq_ok.mp ran
    split at ran
    · exact Except.ok.inj ran ▸ none_
    · obtain ⟨off, -, ran⟩ := run_bind_eq_ok.mp ran
      obtain ⟨found, walked, ran⟩ := run_bind_eq_ok.mp ran
      obtain rfl := Except.ok.inj ran
      have kept := run_walkChain_keeps run_addFile none_ walked
      rw [kept.1]
      exact kept

end Names

def Holds (buf : Bytes) (off : Nat) (list : Bytes) : Prop := ∃ front tail, front.length = off ∧ buf = front ++ (list ++ tail)

def Forward (here size there : Nat) : Prop := here + size ≤ there ∧ there - here < 2 ^ 32

instance (here size there : Nat) : Decidable (Forward here size there) := inferInstanceAs (Decidable (_ ∧ _))

def rel (here there : Nat) : UInt32 := UInt32.ofNat (there - here)

/-- Entries of one kind in a chain: each leads forward to the next, and the last nowhere. -/
inductive Chained {α : Type} (buf : Bytes) (size : Nat) (place : α → Nat) (encode : α → UInt32 → Bytes) : List α → Prop
  | last {a : α} (held : Holds buf (place a) (encode a 0)) : Chained buf size place encode [a]
  | cons {a b : α} {rest : List α} (held : Holds buf (place a) (encode a (rel (place a) (place b))))
      (forward : Forward (place a) size (place b)) (more : Chained buf size place encode (b :: rest)) :
      Chained buf size place encode (a :: b :: rest)

structure NameEntry where
  place : Nat
  flags : UInt32
  parent : UInt64
  reserved : UInt32
  name : List UInt16

def NameEntry.bytes (entry : NameEntry) (next : UInt32) : Bytes :=
  u32 next ++ (u32 entry.flags ++ (u64 entry.parent ++ (u32 (UInt32.ofNat (2 * entry.name.length)) ++ (u32 entry.reserved ++
    utf16Bytes entry.name))))

def NameEntry.parsed (entry : NameEntry) : LayoutName where
  parentFrn := ⟨entry.parent⟩
  name := (Wtf8.fromUtf16 entry.name).1
  nameLossy := (Wtf8.fromUtf16 entry.name).2
  dosOnly := entry.flags &&& nameEntryDos ≠ 0 && entry.flags &&& nameEntryPrimary = 0

/-- An entry of a stream, with the fields that are read and those that are not. -/
structure StreamEntry where
  place : Nat
  version : UInt32
  flags : UInt32
  extents : UInt32
  allocationSize : Int64
  endOfFile : Int64
  information : UInt32
  attributeType : UInt32
  attributeFlags : UInt32
  identifier : List UInt16

def StreamEntry.bytes (entry : StreamEntry) (next : UInt32) : Bytes :=
  u32 entry.version ++ (u32 next ++ (u32 entry.flags ++ (u32 entry.extents ++ (i64 entry.allocationSize ++ (i64 entry.endOfFile ++
    (u32 entry.information ++ (u32 entry.attributeType ++ (u32 entry.attributeFlags ++
      (u32 (UInt32.ofNat (2 * entry.identifier.length)) ++ utf16Bytes entry.identifier)))))))))

def StreamEntry.unnamed (entry : StreamEntry) : Bool :=
  entry.identifier = [] || entry.identifier = [0x3A, 0x3A, 0x24, 0x44, 0x41, 0x54, 0x41]

/-- An info entry: where it is, how much of it may be read, and its times. -/
structure InfoEntry where
  place : Nat
  length : UInt32
  creationTime : Int64
  lastAccessTime : Int64
  lastWriteTime : Int64

def InfoEntry.bytes (entry : InfoEntry) : Bytes := i64 entry.creationTime ++ (i64 entry.lastAccessTime ++ i64 entry.lastWriteTime)

/-- A length of 0 stands for all fields; a shorter one than the times take leaves them out. -/
def InfoEntry.timed (entry : InfoEntry) : Bool := entry.length = 0 || infoPrefixLen ≤ entry.length.toNat

structure FileEntry where
  place : Nat
  version : UInt32
  flags : UInt32
  attributes : UInt32
  frn : UInt64
  names : List NameEntry
  info : Option InfoEntry
  streams : List StreamEntry

namespace FileEntry

variable (file : FileEntry)

def bytes (next : UInt32) : Bytes :=
  u32 file.version ++ (u32 next ++ (u32 file.flags ++ (u32 file.attributes ++ (u64 file.frn ++
    (u32 (file.names.head?.elim 0 fun entry => rel file.place entry.place) ++
      (u32 (file.streams.head?.elim 0 fun entry => rel file.place entry.place) ++
        (u32 (file.info.elim 0 fun entry => rel file.place entry.place) ++ u32 (file.info.elim 0 InfoEntry.length))))))))

def isDir : Bool := file.attributes &&& fileAttributeDirectory ≠ 0

/-- What a file comes to: a folder has no size, and another file that of its first unnamed stream. -/
def parsed : LayoutFile where
  frn := ⟨file.frn⟩
  attributes := file.attributes
  size := if file.isDir then none else (file.streams.find? StreamEntry.unnamed).map fun entry => (max entry.endOfFile 0).toUInt64
  mtimeFt := (file.info.filter InfoEntry.timed).map InfoEntry.lastWriteTime
  names := file.names.map NameEntry.parsed

/-- The satellites of a file entry are laid out behind it, in chains that only lead forward. -/
structure Laid (buf : Bytes) : Prop where
  names : file.names = [] ∨ Chained buf nameEntryLen NameEntry.place NameEntry.bytes file.names
  firstName : ∀ entry ∈ file.names.head?, Forward file.place fileEntryLen entry.place
  shortNames : ∀ entry ∈ file.names, entry.name.length ≤ 255
  streams : file.streams = [] ∨ Chained buf streamEntryLen StreamEntry.place StreamEntry.bytes file.streams
  firstStream : ∀ entry ∈ file.streams.head?, Forward file.place fileEntryLen entry.place
  shortStreams : ∀ entry ∈ file.streams, 2 * entry.identifier.length < 2 ^ 32
  info : ∀ entry ∈ file.info, Forward file.place fileEntryLen entry.place ∧ entry.place < buf.length ∧
    (entry.timed = true → Holds buf entry.place entry.bytes)

end FileEntry

def Apart (a b : NameEntry) : Prop := a.place + nameEntryLen ≤ b.place ∨ b.place + nameEntryLen ≤ a.place

instance (a b : NameEntry) : Decidable (Apart a b) := inferInstanceAs (Decidable (_ ∨ _))

inductive LaidOut : Bytes → List FileEntry → Prop
  | empty : LaidOut [] []
  | none {buf : Bytes} (first flags reserved : UInt32) (header : Holds buf 0 (u32 0 ++ (u32 first ++ (u32 flags ++ u32 reserved)))) :
      LaidOut buf []
  | files {buf : Bytes} {file : FileEntry} {rest : List FileEntry} (count flags reserved : UInt32) (some_ : count ≠ 0)
      (header : Holds buf 0 (u32 count ++ (u32 (rel 0 file.place) ++ (u32 flags ++ u32 reserved))))
      (first : Forward 0 outputHeaderLen file.place)
      (chained : Chained buf fileEntryLen FileEntry.place FileEntry.bytes (file :: rest))
      (laid : ∀ f ∈ file :: rest, f.Laid buf)
      (apart : ((file :: rest).flatMap FileEntry.names).Pairwise Apart) : LaidOut buf (file :: rest)

section Exact

variable {list : Bytes} {size lo hi : Nat} {file : FileEntry} {there here : Nat} {files : List FileEntry}

theorem Holds.le (held : Holds buf off list) : off + list.length ≤ buf.length := by
  obtain ⟨front, tail, rfl, rfl⟩ := held
  simp only [length_append]
  omega

theorem Holds.slice (held : Holds buf off list) (within : hi ≤ list.length) :
    Span.slice buf ⟨off + lo, off + hi⟩ = Span.slice list ⟨lo, hi⟩ := by
  obtain ⟨front, tail, rfl, rfl⟩ := held
  rw [Span.slice_append rfl, Span.slice_append_left within]

theorem Holds.run_readStruct (held : Holds buf off list) (some_ : 0 < size) (within : size ≤ list.length) (what : String) :
    (readStruct buf.length off size what).run (Span.slice buf) = .ok (list.take size) := by
  have bound := held.le
  have read : Span.slice buf ⟨off + 0, off + size⟩ = list.take size := held.slice within
  rw [readStruct, readBytes, if_neg (by omega), run_require_bind (by omega), run_require_bind (by omega), run_fetch]
  exact congrArg Except.ok read

theorem Holds.run_readBytes {fixed text : Bytes} (held : Holds buf off (fixed ++ text)) {need : Nat} (start : fixed.length = size)
    (length : text.length = need) (what : String) :
    (readBytes buf.length (off + size) need what).run (Span.slice buf) = .ok text := by
  subst start length
  unfold readBytes
  split
  case isTrue none_ =>
    rw [length_eq_zero_iff.mp none_]
    rfl
  case isFalse some_ =>
    have bound := held.le
    rw [length_append] at bound
    have read : Span.slice buf ⟨off + fixed.length, off + (fixed.length + text.length)⟩ = text := by
      rw [held.slice (by rw [length_append]), Span.slice]
      simp
    rw [run_require_bind (by omega), run_require_bind (by omega), run_fetch, Nat.add_assoc]
    exact congrArg Except.ok read

theorem toNat_rel (forward : Forward here size there) : (rel here there).toNat = there - here :=
  UInt32.toNat_ofNat_of_lt' forward.2

theorem rel_ne_zero (some_ : 0 < size) (forward : Forward here size there) : rel here there ≠ 0 := by
  intro zero
  have same := toNat_rel forward
  have clear := forward.1
  rw [zero] at same
  have : (0 : UInt32).toNat = 0 := rfl
  omega

theorem run_followOffset_forward {store : Span → Bytes} (forward : Forward here size there) (inside : there < len)
    (what : String) : (followOffset len here (rel here there) size what).run store = .ok there := by
  have clear := forward.1
  have back : here + (there - here) = there := by omega
  rw [followOffset, toNat_rel forward, run_require_bind (by omega), back, run_require_bind inside]
  rfl

section Chains

variable {α : Type} {place : α → Nat} {encode : α → UInt32 → Bytes} {items : List α}
variable {step : σ → α → Except LayoutWalkError σ}

theorem Chained.holds (chained : Chained buf size place encode items) {a : α} (mem : a ∈ items) :
    ∃ next, Holds buf (place a) (encode a next) := by
  induction chained with
  | last held =>
    rw [mem_singleton.mp mem]
    exact ⟨_, held⟩
  | cons held forward more ih =>
    rcases mem_cons.mp mem with rfl | later
    · exact ⟨_, held⟩
    · exact ih later

structure Written (kind : ChainKind) (encode : α → UInt32 → Bytes) : Prop where
  some_ : 0 < kind.size
  size : ∀ a next, kind.size ≤ (encode a next).length
  next : ∀ a next, u32At ((encode a next).take kind.size) kind.nextAt = next

theorem Chained.room (chained : Chained buf kind.size place encode items) (written : Written kind encode) {a : α}
    (mem : a ∈ items) : place a + kind.size ≤ buf.length := by
  obtain ⟨next, held⟩ := chained.holds mem
  exact le_trans (Nat.add_le_add_left (written.size a next) _) held.le

theorem Chained.run_walkChain (chained : Chained buf kind.size place encode items) (written : Written kind encode)
    (each : ∀ a ∈ items, ∀ next state, Holds buf (place a) (encode a next) →
      (body (place a) ((encode a next).take kind.size) state).run (Span.slice buf) = step state a) {first : α} (head : items.head? = some first) (enough : buf.length ≤ place first + fuel) (state : σ) :
    (walkChain buf.length kind body fuel (place first) state).run (Span.slice buf) = items.foldlM step state := by
  induction chained generalizing fuel first state with
  | @last a held =>
    obtain rfl := some.inj head
    have bound := held.le
    have long := written.size a 0
    have some_ := written.some_
    obtain ⟨fuel, rfl⟩ : ∃ n, fuel = n + 1 := ⟨fuel - 1, by omega⟩
    rw [walkChain, run_bind_ok (held.run_readStruct some_ long _), run_bind, each a (by simp) 0 state held, written.next,
      foldlM_cons]
    rfl
  | @cons a b rest held forward more ih =>
    obtain rfl := some.inj head
    have bound := held.le
    have some_ := written.some_
    have long := written.size a (rel (place a) (place b))
    have inside := more.room written (mem_cons_self ..)
    obtain ⟨fuel, rfl⟩ : ∃ n, fuel = n + 1 := ⟨fuel - 1, by omega⟩
    rw [walkChain, run_bind_ok (held.run_readStruct some_ long _), run_bind, each a (by simp) _ state held, written.next,
      foldlM_cons]
    congr 1
    funext state'
    rw [if_neg (rel_ne_zero some_ forward), run_bind_ok (run_followOffset_forward forward (by omega) _)]
    have clear := forward.1
    exact ih (fun a mem => each a (mem_cons_of_mem _ mem)) rfl (by omega) state'

theorem run_followChain_laid (step : σ → α → Except LayoutWalkError σ) (written : Written kind encode)
    (each : ∀ a ∈ items, ∀ next state, Holds buf (place a) (encode a next) →
      (body (place a) ((encode a next).take kind.size) state).run (Span.slice buf) = step state a)
    (chained : items = [] ∨ Chained buf kind.size place encode items)
    (forward : ∀ a ∈ items.head?, Forward base fileEntryLen (place a)) (what : String) (start : σ) :
    (followChain buf.length kind body buf.length base (items.head?.elim 0 fun a => rel base (place a)) what start).run
      (Span.slice buf) = items.foldlM step start := by
  cases items with
  | nil => rfl
  | cons first rest =>
    have ahead := forward first rfl
    have links := chained.resolve_left (cons_ne_nil _ _)
    have inside := links.room written (mem_cons_self ..)
    have some_ := written.some_
    rw [followChain, head?_cons, elim_some, if_neg (rel_ne_zero (by decide : 0 < fileEntryLen) ahead),
      run_bind_ok (run_followOffset_forward ahead (by omega) what)]
    exact links.run_walkChain written each rfl (Nat.le_add_left ..) start

end Chains

open LittleEndian

theorem written_names : Written nameChain NameEntry.bytes where
  some_ := by decide
  size entry next := by
    simp only [NameEntry.bytes, length_append, length_u32, length_u64, nameChain, nameEntryLen]
    omega
  next entry next := by
    simp [NameEntry.bytes, u32At, nameChain, nameEntryLen, u32]

theorem run_parseName_exact (entry : NameEntry) (short : entry.name.length ≤ 255) (next : UInt32) (names : List LayoutName)
    (held : Holds buf entry.place (entry.bytes next)) :
    (parseName buf.length entry.place ((entry.bytes next).take nameEntryLen) names).run (Span.slice buf) =
      .ok (names ++ [entry.parsed]) := by
  have nameLen : u32At ((entry.bytes next).take nameEntryLen) 16 = UInt32.ofNat (2 * entry.name.length) := by
    rw [NameEntry.bytes]
    generalize UInt32.ofNat (2 * entry.name.length) = length
    simp [u32At, nameEntryLen, u32, u64]
  have flags : u32At ((entry.bytes next).take nameEntryLen) 4 = entry.flags := by
    simp [NameEntry.bytes, u32At, nameEntryLen, u32]
  have parent : u64At ((entry.bytes next).take nameEntryLen) 8 = entry.parent := by
    simp [NameEntry.bytes, u64At, nameEntryLen, u32, u64]
  have split : entry.bytes next = (u32 next ++ (u32 entry.flags ++ (u64 entry.parent ++
      (u32 (UInt32.ofNat (2 * entry.name.length)) ++ u32 entry.reserved)))) ++ utf16Bytes entry.name := by simp [NameEntry.bytes]
  have small : 2 * entry.name.length < 2 ^ 32 := by omega
  have length : (UInt32.ofNat (2 * entry.name.length)).toNat = 2 * entry.name.length := UInt32.toNat_ofNat_of_lt' small
  rw [split] at held
  have read := held.run_readBytes (show _ = nameEntryLen by simp [nameEntryLen]) (length_utf16Bytes entry.name) "FILE_LAYOUT_NAME_ENTRY.FileName"
  simp only [parseName, nameLen, flags, parent, length]
  rw [run_require_bind (by simp only [maxNameUtf16Bytes]; omega), run_require_bind (by omega), run_bind_ok read, utf16Units_utf16Bytes]
  rfl

theorem written_streams : Written streamChain StreamEntry.bytes where
  some_ := by decide
  size entry next := by
    simp only [StreamEntry.bytes, length_append, length_u32, length_i64, streamChain, streamEntryLen]
    omega
  next entry next := by
    simp [StreamEntry.bytes, u32At, streamChain, streamEntryLen, u32]

theorem isUnnamed_utf16Bytes (entry : StreamEntry) : isUnnamedDataIdentifier (utf16Bytes entry.identifier) = entry.unnamed := by
  have injective : Function.Injective utf16Bytes := Function.LeftInverse.injective utf16Units_utf16Bytes
  have data : unnamedDataIdentifier = utf16Bytes [0x3A, 0x3A, 0x24, 0x44, 0x41, 0x54, 0x41] := by decide
  have empty : (utf16Bytes entry.identifier).isEmpty = decide (entry.identifier = []) := by
    rw [Bool.eq_iff_iff, List.isEmpty_iff, decide_eq_true_iff]
    exact injective.eq_iff' rfl
  rw [isUnnamedDataIdentifier, data, StreamEntry.unnamed, empty]
  simp only [injective.eq_iff]

def sizeAfter (isDir : Bool) (size : Option UInt64) (entry : StreamEntry) : Option UInt64 :=
  if !isDir && size.isNone && entry.unnamed then some (max entry.endOfFile 0).toUInt64 else size

theorem run_parseStream_exact (isDir : Bool) (entry : StreamEntry) (short : 2 * entry.identifier.length < 2 ^ 32) (next : UInt32)
    (size : Option UInt64) (held : Holds buf entry.place (entry.bytes next)) :
    (parseStream buf.length isDir entry.place ((entry.bytes next).take streamEntryLen) size).run (Span.slice buf) =
      .ok (sizeAfter isDir size entry) := by
  have idLen : u32At ((entry.bytes next).take streamEntryLen) 44 = UInt32.ofNat (2 * entry.identifier.length) := by
    rw [StreamEntry.bytes]
    generalize UInt32.ofNat (2 * entry.identifier.length) = length
    simp [u32At, streamEntryLen, u32, u64, i64]
  have endOfFile : i64At ((entry.bytes next).take streamEntryLen) 24 = entry.endOfFile := by
    simp [StreamEntry.bytes, i64At, u64At, streamEntryLen, u32, u64, i64]
  have split : entry.bytes next = (u32 entry.version ++ (u32 next ++ (u32 entry.flags ++ (u32 entry.extents ++
      (i64 entry.allocationSize ++ (i64 entry.endOfFile ++ (u32 entry.information ++ (u32 entry.attributeType ++
        (u32 entry.attributeFlags ++ u32 (UInt32.ofNat (2 * entry.identifier.length))))))))))) ++ utf16Bytes entry.identifier := by
    simp [StreamEntry.bytes]
  have length : (UInt32.ofNat (2 * entry.identifier.length)).toNat = 2 * entry.identifier.length := UInt32.toNat_ofNat_of_lt' short
  rw [split] at held
  have read := held.run_readBytes (show _ = streamEntryLen by simp [streamEntryLen]) (length_utf16Bytes entry.identifier)
    "STREAM_LAYOUT_ENTRY.StreamIdentifier"
  simp only [parseStream, idLen, endOfFile, length]
  rw [run_require_bind (by omega), run_bind_ok read, isUnnamed_utf16Bytes]
  rfl

theorem run_parseInfo_exact (laid : file.Laid buf) :
    (parseInfo buf.length file.place (file.info.elim 0 fun entry => rel file.place entry.place) (file.info.elim 0 InfoEntry.length)).run
      (Span.slice buf) = .ok ((file.info.filter InfoEntry.timed).map InfoEntry.lastWriteTime) := by
  have there := laid.info
  cases found : file.info with
  | none => rfl
  | some entry =>
    obtain ⟨forward, inside, held⟩ := there entry found
    have timed : infoPrefixLen ≤ (if entry.length = 0 then infoEntryLegacyLen else entry.length.toNat) ↔ entry.timed = true := by
      by_cases zero : entry.length = 0
      · simp [InfoEntry.timed, zero, infoPrefixLen, infoEntryLegacyLen]
      · simp [InfoEntry.timed, zero]
    show (parseInfo buf.length file.place (rel file.place entry.place) entry.length).run _ = _
    rw [parseInfo, if_neg (rel_ne_zero (by decide) forward), run_bind_ok (run_followOffset_forward forward inside _)]
    dsimp only
    by_cases short : entry.timed = true
    · have fits : infoPrefixLen ≤ entry.bytes.length := by simp [InfoEntry.bytes, infoPrefixLen]
      have written : i64At (entry.bytes.take infoPrefixLen) 16 = entry.lastWriteTime := by
        simp [InfoEntry.bytes, i64At, u64At, infoPrefixLen, u64, i64]
      rw [if_pos (timed.mpr short), run_bind_ok ((held short).run_readStruct (by decide) fits _), written, filter_some_pos short]
      rfl
    · rw [if_neg (mt timed.mp short), filter_some_neg (Bool.eq_false_of_not_eq_true short)]
      rfl

theorem foldl_sizeAfter_found (isDir : Bool) (size : UInt64) (entries : List StreamEntry) :
    entries.foldl (sizeAfter isDir) (some size) = some size := by
  induction entries with
  | nil => rfl
  | cons entry rest ih => simpa [sizeAfter] using ih

theorem foldl_sizeAfter (isDir : Bool) (entries : List StreamEntry) : entries.foldl (sizeAfter isDir) none =
    if isDir then none else (entries.find? StreamEntry.unnamed).map fun entry => (max entry.endOfFile 0).toUInt64 := by
  induction entries with
  | nil => simp
  | cons entry rest ih =>
    by_cases taken : isDir = false ∧ entry.unnamed = true
    · simp [sizeAfter, taken, foldl_sizeAfter_found]
    · have skipped : sizeAfter isDir none entry = none := by
        simp only [sizeAfter, isNone_none, Bool.and_true]
        rw [if_neg]
        simpa using taken
      rw [foldl_cons, skipped, ih]
      cases isDir <;> simp_all

theorem foldl_names (entries : List NameEntry) (names : List LayoutName) :
    entries.foldl (fun names entry => names ++ [entry.parsed]) names = names ++ entries.map NameEntry.parsed := by
  induction entries generalizing names with
  | nil => simp
  | cons entry rest ih => simp [ih]

theorem written_files : Written fileChain FileEntry.bytes where
  some_ := by decide
  size file next := by simp [FileEntry.bytes, fileChain, fileEntryLen]
  next file next := by
    simp [FileEntry.bytes, u32At, fileChain, fileEntryLen, u32]

theorem run_parseFile_exact (laid : file.Laid buf) (next : UInt32) :
    (parseFile buf.length buf.length file.place ((file.bytes next).take fileEntryLen)).run (Span.slice buf) =
      .ok file.parsed := by
  have frn : u64At ((file.bytes next).take fileEntryLen) 16 = file.frn := by
    simp [FileEntry.bytes, u64At, fileEntryLen, u32, u64]
  have attributes : u32At ((file.bytes next).take fileEntryLen) 12 = file.attributes := by simp [FileEntry.bytes, u32At, fileEntryLen, u32]
  have firstName : u32At ((file.bytes next).take fileEntryLen) 24 = file.names.head?.elim 0 fun entry => rel file.place entry.place := by
    simp [FileEntry.bytes, u32At, fileEntryLen, u32, u64]
  have firstStream : u32At ((file.bytes next).take fileEntryLen) 28 = file.streams.head?.elim 0 fun entry => rel file.place entry.place := by
    simp [FileEntry.bytes, u32At, fileEntryLen, u32, u64]
  have info : u32At ((file.bytes next).take fileEntryLen) 32 = file.info.elim 0 fun entry => rel file.place entry.place := by
    simp [FileEntry.bytes, u32At, fileEntryLen, u32, u64]
  have infoLength : u32At ((file.bytes next).take fileEntryLen) 36 = file.info.elim 0 InfoEntry.length := by
    simp [FileEntry.bytes, u32At, fileEntryLen, u32, u64]
  have names := run_followChain_laid (fun names entry => pure (names ++ [entry.parsed])) written_names
    (fun entry mem next names held => run_parseName_exact entry (laid.shortNames entry mem) next names held)
    laid.names laid.firstName "FILE_LAYOUT_ENTRY.FirstNameOffset" []
  have sizes := run_followChain_laid (fun size entry => pure (sizeAfter file.isDir size entry)) written_streams
    (fun entry mem next size held => run_parseStream_exact file.isDir entry (laid.shortStreams entry mem) next size held)
    laid.streams laid.firstStream "FILE_LAYOUT_ENTRY.FirstStreamOffset" none
  rw [foldlM_pure, foldl_names] at names
  rw [foldlM_pure, foldl_sizeAfter] at sizes
  simp only [parseFile]
  rw [frn, attributes, firstName, firstStream, info, infoLength]
  have folder : decide (file.attributes &&& fileAttributeDirectory ≠ 0) = file.isDir := rfl
  rw [run_bind_ok names, run_bind_ok (run_parseInfo_exact laid), folder, run_bind_ok sizes]
  rfl

theorem length_le_of_apart {entries : List NameEntry} (apart : entries.Pairwise Apart)
    (inside : ∀ entry ∈ entries, entry.place + nameEntryLen ≤ len) : entries.length ≤ len / nameEntryLen := by
  let places (entry : NameEntry) : List Nat := range' entry.place nameEntryLen
  have nodup : (entries.flatMap places).Nodup := by
    apply nodup_flatMap.mpr
    refine ⟨fun entry _ => nodup_range', apart.imp ?_⟩
    intro a b apart k first second
    simp only [places, mem_range'_1] at first second
    unfold Apart at apart
    omega
  have below : entries.flatMap places ⊆ range len := by
    intro k mem
    obtain ⟨entry, there, mem⟩ := mem_flatMap.mp mem
    have room := inside entry there
    have bound := (mem_range'_1.mp mem).2
    rw [mem_range]
    omega
  have count := (nodup.subperm below).length_le
  simp only [places, length_flatMap, length_range', length_range, map_const', sum_replicate, smul_eq_mul] at count
  exact (Nat.le_div_iff_mul_le (by decide)).mpr count

def withFile (len : Nat) (found : List LayoutFile × Nat) (file : FileEntry) : Except LayoutWalkError (List LayoutFile × Nat) :=
  if found.2 + file.names.length ≤ len / nameEntryLen then .ok (found.1 ++ [file.parsed], found.2 + file.names.length)
  else .error (.tooManyNames (found.2 + file.names.length) (len / nameEntryLen) len)

theorem run_addFile_exact (laid : file.Laid buf) (next : UInt32) (found : List LayoutFile × Nat) :
    (addFile buf.length buf.length file.place ((file.bytes next).take fileEntryLen) found).run (Span.slice buf) =
      withFile buf.length found file := by
  have names : file.parsed.names.length = file.names.length := length_map ..
  rw [addFile, run_bind_ok (run_parseFile_exact laid next), withFile]
  dsimp only
  rw [names]
  split
  case isTrue room =>
    rw [run_require_bind room]
    rfl
  case isFalse full =>
    unfold require
    rw [if_neg full]
    rfl

theorem foldlM_withFile (files : List FileEntry) (found : List LayoutFile × Nat)
    (room : found.2 + (files.flatMap FileEntry.names).length ≤ len / nameEntryLen) :
    files.foldlM (withFile len) found =
      .ok (found.1 ++ files.map FileEntry.parsed, found.2 + (files.flatMap FileEntry.names).length) := by
  induction files generalizing found with
  | nil => simp; rfl
  | cons file rest ih =>
    rw [flatMap_cons, length_append] at room ⊢
    have added : withFile len found file = .ok (found.1 ++ [file.parsed], found.2 + file.names.length) := if_pos (by omega)
    have later := ih (found.1 ++ [file.parsed], found.2 + file.names.length) (by simp only; omega)
    rw [foldlM_cons, added]
    refine later.trans ?_
    simp [Nat.add_assoc]

theorem names_room (laid : ∀ file ∈ files, file.Laid buf)
    (apart : (files.flatMap FileEntry.names).Pairwise Apart) :
    (files.flatMap FileEntry.names).length ≤ buf.length / nameEntryLen := by
  apply length_le_of_apart apart
  intro entry mem
  obtain ⟨file, there, named⟩ := mem_flatMap.mp mem
  have chained := (laid file there).names.resolve_left (ne_nil_of_mem named)
  exact chained.room written_names named

theorem LaidOut.walkLayoutBuffer_eq (listed : LaidOut buf files) :
    walkLayoutBuffer buf = .ok (files.map FileEntry.parsed) := by
  cases listed with
  | empty => rfl
  | none first flags reserved header =>
    have bound := header.le
    have count : u32At ((u32 0 ++ (u32 first ++ (u32 flags ++ u32 reserved))).take outputHeaderLen) 0 = 0 := by
      simp [u32At, outputHeaderLen, u32]
    have read := header.run_readStruct (show 0 < outputHeaderLen by decide) (by simp [outputHeaderLen]) "QUERY_FILE_LAYOUT_OUTPUT"
    simp only [length_append, length_u32] at bound
    rw [walkLayoutBuffer, walkLayout, if_neg (by omega), run_bind_ok read, count, if_pos rfl]
    rfl
  | @files _ file rest count flags reserved some_ header first chained laid apart =>
    have bound := header.le
    have held : u32At ((u32 count ++ (u32 (rel 0 file.place) ++ (u32 flags ++ u32 reserved))).take outputHeaderLen) 0 = count := by
      simp [u32At, outputHeaderLen, u32]
    have start : u32At ((u32 count ++ (u32 (rel 0 file.place) ++ (u32 flags ++ u32 reserved))).take outputHeaderLen) 4 =
        rel 0 file.place := by
      simp [u32At, outputHeaderLen, u32]
    have read := header.run_readStruct (show 0 < outputHeaderLen by decide) (by simp [outputHeaderLen]) "QUERY_FILE_LAYOUT_OUTPUT"
    have inside : file.place + 40 ≤ buf.length := chained.room written_files (mem_cons_self ..)
    have walked : (walkChain buf.length fileChain (addFile buf.length buf.length) buf.length file.place ([], 0)).run
        (Span.slice buf) = (file :: rest).foldlM (withFile buf.length) ([], 0) :=
      chained.run_walkChain written_files (fun f mem next found _ => run_addFile_exact (laid f mem) next found) rfl
        (Nat.le_add_left ..) ([], 0)
    rw [foldlM_withFile _ _ (by simpa using names_room laid apart)] at walked
    simp only [length_append, length_u32] at bound
    rw [walkLayoutBuffer, walkLayout, if_neg (by omega), run_bind_ok read, held, if_neg some_, start,
      run_bind_ok (run_followOffset_forward first (by omega) _), run_bind_ok walked]
    rfl

end Exact

/-- Layout buffers parse safely, whatever they hold, and exactly, if files were laid out in them. -/
theorem layout_buffers_parse :
    (∀ buf : Bytes,
      Reads (fun span => span.slice buf) (Within buf.length) (walkLayout buf.length buf.length) ∧
      (∀ more, (walkLayout buf.length (buf.length + more)).trace (fun span => span.slice buf) =
        (walkLayout buf.length buf.length).trace fun span => span.slice buf) ∧
      ∀ files, walkLayoutBuffer buf = .ok files →
        (files.map (·.names.length)).sum ≤ buf.length / nameEntryLen ∧
        ∀ file ∈ files, ∀ name ∈ file.names, name.name.length ≤ nameBytesMax) ∧
    ∀ buf files, LaidOut buf files → walkLayoutBuffer buf = .ok (files.map FileEntry.parsed) := by
  refine ⟨fun buf => ⟨reads_walkLayout _, trace_walkLayout_fuel, ?_⟩, fun buf files listed => listed.walkLayoutBuffer_eq⟩
  intro files ran
  have kept := run_walkLayout ran
  exact ⟨kept.2.1, kept.2.2⟩

def sampleFile : FileEntry where
  place := 16
  version := 1
  flags := 0
  attributes := 0x20
  frn := 0x2A
  names := [⟨56, nameEntryPrimary, 5, 0, [0x61]⟩, ⟨88, nameEntryDos, 5, 0, [0x41]⟩]
  info := some ⟨120, 0, 1, 2, 3⟩
  streams := [⟨144, 1, 0, 0, 8, 7, 0, 0x80, 0, [0x3A]⟩, ⟨200, 1, 0, 0, 8, 5, 0, 0x80, 0, []⟩]

def sampleHeader : Bytes := u32 1 ++ (u32 16 ++ (u32 0 ++ u32 0))

def sampleBuffer : Bytes :=
  sampleHeader ++ sampleFile.bytes 0 ++ (NameEntry.bytes ⟨56, nameEntryPrimary, 5, 0, [0x61]⟩ 32 ++ replicate 6 0) ++
    (NameEntry.bytes ⟨88, nameEntryDos, 5, 0, [0x41]⟩ 0 ++ replicate 6 0) ++ InfoEntry.bytes ⟨120, 0, 1, 2, 3⟩ ++
      (StreamEntry.bytes ⟨144, 1, 0, 0, 8, 7, 0, 0x80, 0, [0x3A]⟩ 56 ++ replicate 6 0) ++
        StreamEntry.bytes ⟨200, 1, 0, 0, 8, 5, 0, 0x80, 0, []⟩ 0

theorem holds_of_take {buf list : Bytes} (found : off ≤ buf.length ∧ (buf.drop off).take list.length = list) :
    Holds buf off list := by
  refine ⟨buf.take off, (buf.drop off).drop list.length, length_take_of_le found.1, ?_⟩
  calc buf = buf.take off ++ buf.drop off := (take_append_drop ..).symm
    _ = buf.take off ++ ((buf.drop off).take list.length ++ (buf.drop off).drop list.length) := by
      rw [take_append_drop list.length]
    _ = buf.take off ++ (list ++ (buf.drop off).drop list.length) := by rw [found.2]

theorem laid_sampleFile : sampleFile.Laid sampleBuffer where
  names := .inr (.cons (holds_of_take (by decide +kernel)) (by decide) (.last (holds_of_take (by decide +kernel))))
  firstName := by decide
  shortNames := by decide
  streams := .inr (.cons (holds_of_take (by decide +kernel)) (by decide) (.last (holds_of_take (by decide +kernel))))
  firstStream := by decide
  shortStreams := by decide
  info := by
    rintro entry ⟨⟩
    exact ⟨by decide, by decide +kernel, fun _ => holds_of_take (by decide +kernel)⟩

theorem laidOut_sampleBuffer : LaidOut sampleBuffer [sampleFile] := by
  apply LaidOut.files 1 0 0 (by decide) (holds_of_take (by decide +kernel)) (by decide)
    (.last (holds_of_take (by decide +kernel)))
  · intro file mem
    rw [mem_singleton.mp mem]
    exact laid_sampleFile
  · decide

theorem sampleBuffer_parses : LaidOut sampleBuffer [sampleFile] ∧ walkLayoutBuffer sampleBuffer = .ok [{
    frn := ⟨0x2A⟩, attributes := 0x20, size := some 5, mtimeFt := some 3,
    names := [⟨⟨5⟩, [0x61], false, false⟩, ⟨⟨5⟩, [0x41], false, true⟩] }] :=
  ⟨laidOut_sampleBuffer, (layout_buffers_parse.2 sampleBuffer [sampleFile] laidOut_sampleBuffer).trans (by decide)⟩

end Goz.Layout
