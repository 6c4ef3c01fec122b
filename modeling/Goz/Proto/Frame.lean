import Goz.Core.Words

namespace Goz.Proto

open List

variable {d : FrameDecoder} {cap len : UInt32} {stream : Bytes} {frames : List Bytes} {calls : List Call}
variable {payloads : List Bytes}

def prefixLen : Nat := 4

def compactThreshold : Nat := 64 * 1024

/-- `none` where the source panics: the length does not fit the four bytes. -/
def encodeFrame (payload out : Bytes) : Option Bytes :=
  if payload.length < UInt32.size then some (out ++ u32 (UInt32.ofNat payload.length) ++ payload) else none

inductive FrameError where
  | tooLarge (len max : UInt32)
deriving DecidableEq

/-- `buf` from `read` on is the unconsumed tail; `poisoned` holds the length that was refused and the cap. -/
structure FrameDecoder where
  buf : Bytes
  read : Nat
  maxFrame : UInt32
  poisoned : Option (UInt32 × UInt32)
deriving DecidableEq

namespace FrameDecoder

def new (maxFrame : UInt32) : FrameDecoder := ⟨[], 0, maxFrame, none⟩

def feed (d : FrameDecoder) (bytes : Bytes) : FrameDecoder := { d with buf := d.buf ++ bytes }

def consume (d : FrameDecoder) (total : Nat) : FrameDecoder :=
  let read := d.read + total
  if read = d.buf.length then { d with buf := [], read := 0 }
  else if compactThreshold ≤ read then { d with buf := d.buf.drop read, read := 0 }
  else { d with read := read }

def nextFrame (d : FrameDecoder) : Except FrameError (Option Bytes) × FrameDecoder :=
  match d.poisoned with
  | some (len, max) => (.error (.tooLarge len max), d)
  | none =>
    let avail := d.buf.drop d.read
    if avail.length < prefixLen then (.ok none, d)
    else
      let len := u32At avail 0
      if d.maxFrame < len then (.error (.tooLarge len d.maxFrame), { d with poisoned := some (len, d.maxFrame) })
      else
        let total := prefixLen + len.toNat
        if avail.length < total then (.ok none, d)
        else (.ok (some ((avail.take total).drop prefixLen)), d.consume total)

end FrameDecoder

section Streams

def frameBytes (payload : Bytes) : Bytes := u32 (UInt32.ofNat payload.length) ++ payload

variable {payload other rest : Bytes} {taken : List Bytes}

@[simp] theorem length_frameBytes : (frameBytes payload).length = prefixLen + payload.length := by simp [frameBytes, prefixLen]

theorem toNat_length (within : payload.length ≤ cap.toNat) : (UInt32.ofNat payload.length).toNat = payload.length :=
  UInt32.toNat_ofNat_of_lt' (lt_of_le_of_lt within cap.toNat_lt)

theorem encodeFrame_eq (within : payload.length ≤ cap.toNat) (out : Bytes) :
    encodeFrame payload out = some (out ++ frameBytes payload) := by
  rw [encodeFrame, if_pos (lt_of_le_of_lt within cap.toNat_lt), frameBytes, append_assoc]

def encodeFrames (payloads : List Bytes) : Option Bytes :=
  payloads.foldlM (fun out payload => encodeFrame payload out) []

theorem encodeFrames_eq (within : ∀ payload ∈ payloads, payload.length ≤ cap.toNat) :
    encodeFrames payloads = some (payloads.flatMap frameBytes) := by
  have all : ∀ (payloads : List Bytes) (out : Bytes), (∀ payload ∈ payloads, payload.length ≤ cap.toNat) →
      payloads.foldlM (fun out payload => encodeFrame payload out) out = some (out ++ payloads.flatMap frameBytes) := by
    intro payloads
    induction payloads with
    | nil => intro out _; simp
    | cons payload payloads ih =>
      intro out within
      obtain ⟨head, tail⟩ := forall_mem_cons.mp within
      rw [foldlM_cons, encodeFrame_eq head, Option.bind_eq_bind, Option.bind_some, ih _ tail, flatMap_cons,
        append_assoc]
  exact all payloads [] within

theorem u32At_u32 (v : UInt32) : u32At (u32 v ++ rest) 0 = v := by
  rw [u32At, u32, LittleEndian.word_zero_bytes, ofNat_mod32]

theorem u32_u32At (long : prefixLen ≤ stream.length) : u32 (u32At stream 0) = stream.take prefixLen := by
  have length : (stream.take prefixLen).length = 4 := length_take_of_le long
  have bound := LittleEndian.number_lt (stream.take prefixLen)
  rw [length] at bound
  have whole : (u32At stream 0).toNat = LittleEndian.number (stream.take prefixLen) := UInt32.toNat_ofNat_of_lt' bound
  have back := LittleEndian.bytes_number (stream.take prefixLen)
  rw [length] at back
  rw [u32, whole, back]

theorem frameBytes_inj (left : payload.length ≤ cap.toNat) (right : other.length ≤ cap.toNat) {more : Bytes}
    (same : frameBytes payload ++ rest = frameBytes other ++ more) : payload = other ∧ rest = more := by
  have lengths : payload.length = other.length := by
    have prefixes := congrArg (u32At · 0) same
    simp only [frameBytes, append_assoc, u32At_u32] at prefixes
    rw [← toNat_length left, ← toNat_length right, prefixes]
  obtain ⟨frames, rests⟩ := append_inj same (by simp [lengths])
  exact ⟨(append_inj frames (by simp)).2, rests⟩

/-- The stream is `frames`, each within the cap, and then a rest at the start of which no further one is complete. -/
structure Leading (cap : UInt32) (stream : Bytes) (frames : List Bytes) (rest : Bytes) : Prop where
  cut : stream = frames.flatMap frameBytes ++ rest
  within : ∀ frame ∈ frames, frame.length ≤ cap.toNat
  ends : ∀ frame more, frame.length ≤ cap.toNat → rest ≠ frameBytes frame ++ more

def Oversize (cap : UInt32) (rest : Bytes) (len : UInt32) : Prop := cap < len ∧ u32 len <+: rest

theorem frame_of_take (long : prefixLen ≤ stream.length) (whole : prefixLen + (u32At stream 0).toNat ≤ stream.length) :
    ((stream.take (prefixLen + (u32At stream 0).toNat)).drop prefixLen).length = (u32At stream 0).toNat ∧
      stream = frameBytes ((stream.take (prefixLen + (u32At stream 0).toNat)).drop prefixLen) ++
        stream.drop (prefixLen + (u32At stream 0).toNat) := by
  set total := prefixLen + (u32At stream 0).toNat with total_eq
  have length : ((stream.take total).drop prefixLen).length = (u32At stream 0).toNat := by
    rw [length_drop, length_take_of_le whole, total_eq, Nat.add_sub_cancel_left]
  have start : (stream.take total).take prefixLen = stream.take prefixLen := by
    rw [take_take, Nat.min_eq_left (by omega)]
  constructor
  · exact length
  · rw [frameBytes, length, UInt32.ofNat_toNat, u32_u32At long, ← start, take_append_drop, take_append_drop]

theorem u32At_oversize (oversize : Oversize cap stream len) : prefixLen ≤ stream.length ∧ u32At stream 0 = len := by
  obtain ⟨-, rest, rfl⟩ := oversize
  exact ⟨by simp [prefixLen], u32At_u32 len⟩

theorem oversize_of_lt (long : prefixLen ≤ stream.length) (above : cap < u32At stream 0) : Oversize cap stream (u32At stream 0) :=
  ⟨above, by rw [u32_u32At long]; exact take_prefix _ _⟩

theorem u32At_frameBytes (rest : Bytes) (within : payload.length ≤ cap.toNat) :
    prefixLen ≤ (frameBytes payload ++ rest).length ∧ ¬ cap < u32At (frameBytes payload ++ rest) 0 ∧
      (u32At (frameBytes payload ++ rest) 0).toNat = payload.length := by
  have length := toNat_length within
  have first : u32At (frameBytes payload ++ rest) 0 = UInt32.ofNat payload.length := by
    rw [frameBytes, append_assoc, u32At_u32]
  rw [first]
  refine ⟨by simp; omega, ?_, length⟩
  rw [UInt32.lt_iff_toNat_lt, length]
  omega

theorem Leading.after (leading : Leading cap stream frames rest) {unread : Bytes} (cut : stream = taken.flatMap frameBytes ++ unread)
    (within : ∀ frame ∈ taken, frame.length ≤ cap.toNat) :
    ∃ later, frames = taken ++ later ∧ Leading cap unread later rest := by
  induction taken generalizing stream frames with
  | nil =>
    obtain rfl : stream = unread := cut
    exact ⟨frames, rfl, leading⟩
  | cons first taken ih =>
    obtain ⟨head, tail⟩ := forall_mem_cons.mp within
    rw [flatMap_cons, append_assoc] at cut
    cases frames with
    | nil => exact absurd (leading.cut.symm.trans cut) (leading.ends first _ head)
    | cons frame frames =>
      obtain ⟨own, others⟩ := forall_mem_cons.mp leading.within
      have same := leading.cut.symm.trans cut
      rw [flatMap_cons, append_assoc] at same
      obtain ⟨rfl, rests⟩ := frameBytes_inj own head same
      obtain ⟨later, rfl, left⟩ := ih ⟨rests.symm, others, leading.ends⟩ rfl tail
      exact ⟨later, rfl, left⟩

theorem exists_leading (cap : UInt32) (stream : Bytes) : ∃ frames rest, Leading cap stream frames rest := by
  induction length : stream.length using Nat.strong_induction_on generalizing stream with
  | _ n ih =>
    by_cases more : ∃ frame left, frame.length ≤ cap.toNat ∧ stream = frameBytes frame ++ left
    · obtain ⟨frame, left, within, rfl⟩ := more
      have shorter : left.length < n := by
        rw [← length, length_append, length_frameBytes, prefixLen]
        omega
      obtain ⟨frames, rest, leading⟩ := ih _ shorter left rfl
      refine ⟨frame :: frames, rest, ?_, forall_mem_cons.mpr ⟨within, leading.within⟩, leading.ends⟩
      rw [flatMap_cons, append_assoc, ← leading.cut]
    · refine ⟨[], stream, rfl, by simp, ?_⟩
      intro frame left within start
      exact more ⟨frame, left, within, start⟩

end Streams

namespace FrameDecoder

def unread (d : FrameDecoder) : Bytes := d.buf.drop d.read

/-- What holds of a decoder between calls: a refused length is still at the start of the unread bytes. -/
structure Sound (d : FrameDecoder) : Prop where
  inside : d.read ≤ d.buf.length
  compacted : d.read < compactThreshold
  refused : ∀ len max, d.poisoned = some (len, max) → max = d.maxFrame ∧ Oversize d.maxFrame d.unread len

variable {frame more bytes : Bytes}

theorem sound_new (cap : UInt32) : (new cap).Sound := ⟨Nat.le_refl 0, Nat.zero_lt_succ _, by simp [new]⟩

theorem unread_feed (sound : d.Sound) : (d.feed bytes).unread = d.unread ++ bytes :=
  drop_append_of_le_length sound.inside

theorem Sound.feed (sound : d.Sound) : (d.feed bytes).Sound := by
  refine ⟨?_, sound.compacted, ?_⟩
  · have inside := sound.inside
    simp only [FrameDecoder.feed, length_append]
    omega
  · intro len max poisoned
    obtain ⟨same, above, start⟩ := sound.refused len max poisoned
    rw [unread_feed sound]
    exact ⟨same, above, start.trans (prefix_append _ _)⟩

section Consuming

variable {total : Nat}

@[simp] theorem maxFrame_consume : (d.consume total).maxFrame = d.maxFrame := by
  simp only [consume]
  split_ifs <;> rfl

@[simp] theorem poisoned_consume : (d.consume total).poisoned = d.poisoned := by
  simp only [consume]
  split_ifs <;> rfl

theorem unread_consume : (d.consume total).unread = d.unread.drop total := by
  rw [unread, unread, drop_drop]
  simp only [consume]
  split_ifs with used
  · rw [drop_nil, used, drop_length]
  · rfl
  · rfl

theorem length_consume_le : (d.consume total).buf.length ≤ d.buf.length := by
  simp only [consume]
  split_ifs <;> simp

theorem Sound.consume (clean : d.poisoned = none) (whole : d.read + total ≤ d.buf.length) : (d.consume total).Sound := by
  have none_refused : ∀ len max, (d.consume total).poisoned = some (len, max) →
      max = (d.consume total).maxFrame ∧ Oversize (d.consume total).maxFrame (d.consume total).unread len := by
    simp [clean]
  refine ⟨?_, ?_, none_refused⟩
  · simp only [FrameDecoder.consume]
    split_ifs <;> simp [whole]
  · simp only [FrameDecoder.consume]
    split_ifs with used over_threshold
    · show 0 < compactThreshold
      decide
    · show 0 < compactThreshold
      decide
    · exact Nat.lt_of_not_le over_threshold

end Consuming

theorem nextFrame_clean (clean : d.poisoned = none) :
    d.nextFrame =
      if d.unread.length < prefixLen then (.ok none, d)
      else if d.maxFrame < u32At d.unread 0 then
        (.error (.tooLarge (u32At d.unread 0) d.maxFrame), { d with poisoned := some (u32At d.unread 0, d.maxFrame) })
      else if d.unread.length < prefixLen + (u32At d.unread 0).toNat then (.ok none, d)
      else (.ok (some ((d.unread.take (prefixLen + (u32At d.unread 0).toNat)).drop prefixLen)),
        d.consume (prefixLen + (u32At d.unread 0).toNat)) := by
  simp only [nextFrame, clean]
  rfl

variable (sound : d.Sound)
include sound

theorem not_poisoned_of_frame (within : frame.length ≤ d.maxFrame.toNat) (start : d.unread = frameBytes frame ++ more) :
    d.poisoned = none := by
  cases poisoned : d.poisoned with
  | none => rfl
  | some refusal =>
    obtain ⟨-, oversize⟩ := sound.refused refusal.1 refusal.2 poisoned
    obtain ⟨-, low, -⟩ := u32At_frameBytes more within
    rw [← start, (u32At_oversize oversize).2] at low
    exact absurd oversize.1 low

theorem nextFrame_frame (within : frame.length ≤ d.maxFrame.toNat) (start : d.unread = frameBytes frame ++ more) :
    d.nextFrame = (.ok (some frame), d.consume (prefixLen + frame.length)) := by
  obtain ⟨long, low, length⟩ := u32At_frameBytes more within
  rw [← start] at long low length
  have whole : prefixLen + frame.length ≤ d.unread.length := by rw [start]; simp
  have payload : (d.unread.take (prefixLen + frame.length)).drop prefixLen = frame := by
    rw [start, take_left' length_frameBytes, frameBytes, drop_left' (by simp [prefixLen])]
  rw [nextFrame_clean (not_poisoned_of_frame sound within start), if_neg (by omega), if_neg low, length, if_neg (by omega), payload]

theorem nextFrame_oversize (oversize : Oversize d.maxFrame d.unread len) :
    d.nextFrame = (.error (.tooLarge len d.maxFrame), { d with poisoned := some (len, d.maxFrame) }) := by
  obtain ⟨long, value⟩ := u32At_oversize oversize
  cases poisoned : d.poisoned with
  | none =>
    rw [nextFrame_clean poisoned, value, if_neg (by omega), if_pos oversize.1]
  | some refusal =>
    obtain ⟨refused, max⟩ := refusal
    obtain ⟨rfl, kept⟩ := sound.refused refused max poisoned
    obtain rfl : refused = len := (u32At_oversize kept).2.symm.trans value
    simp only [nextFrame, poisoned]
    rw [← poisoned]

theorem nextFrame_pending (noFrame : ∀ frame more, frame.length ≤ d.maxFrame.toNat → d.unread ≠ frameBytes frame ++ more)
    (within : ∀ len, ¬ Oversize d.maxFrame d.unread len) :
    d.nextFrame = (.ok none, d) ∧ d.unread.length < prefixLen + d.maxFrame.toNat := by
  have clean : d.poisoned = none := by
    cases poisoned : d.poisoned with
    | none => rfl
    | some refusal => exact absurd (sound.refused refusal.1 refusal.2 poisoned).2 (within refusal.1)
  rw [nextFrame_clean clean]
  by_cases short : d.unread.length < prefixLen
  · rw [if_pos short]
    exact ⟨rfl, by omega⟩
  · have long : prefixLen ≤ d.unread.length := by omega
    have low : ¬ d.maxFrame < u32At d.unread 0 := fun above => within _ (oversize_of_lt long above)
    have bound : (u32At d.unread 0).toNat ≤ d.maxFrame.toNat := by
      rw [UInt32.lt_iff_toNat_lt] at low
      omega
    have cut : d.unread.length < prefixLen + (u32At d.unread 0).toNat := by
      by_contra whole
      obtain ⟨length, start⟩ := frame_of_take long (by omega)
      exact noFrame _ _ (by rw [length]; exact bound) start
    rw [if_neg short, if_neg low, if_pos cut]
    exact ⟨rfl, by omega⟩

end FrameDecoder

section Sessions

inductive Call where
  | feed (bytes : Bytes)
  | nextFrame

/-- A decoder with everything its `nextFrame` has answered, oldest first. -/
structure Session where
  decoder : FrameDecoder
  answers : List (Except FrameError (Option Bytes))

def Session.call (s : Session) : Call → Session
  | .feed bytes => { s with decoder := s.decoder.feed bytes }
  | .nextFrame => ⟨s.decoder.nextFrame.2, s.answers ++ [s.decoder.nextFrame.1]⟩

def session (cap : UInt32) (calls : List Call) : Session := calls.foldl Session.call ⟨.new cap, []⟩

def Call.bytes : Call → Bytes
  | .feed bytes => bytes
  | .nextFrame => []

def fed (calls : List Call) : Bytes := calls.flatMap Call.bytes

def frameOf : Except FrameError (Option Bytes) → Option Bytes
  | .ok frame => frame
  | .error _ => none

def Session.yielded (s : Session) : List Bytes := s.answers.filterMap frameOf

def answer (cap : UInt32) (calls : List Call) : Except FrameError (Option Bytes) := (session cap calls).decoder.nextFrame.1

/-- The decoder holds what is left of the stream once the frames it gave are cut off. -/
structure Session.Tracks (cap : UInt32) (stream : Bytes) (s : Session) : Prop where
  sound : s.decoder.Sound
  max : s.decoder.maxFrame = cap
  cut : stream = s.yielded.flatMap frameBytes ++ s.decoder.unread
  within : ∀ frame ∈ s.yielded, frame.length ≤ cap.toNat

variable {s : Session}

theorem session_append (calls more : List Call) : session cap (calls ++ more) = more.foldl Session.call (session cap calls) :=
  foldl_append

theorem fed_append (calls more : List Call) : fed (calls ++ more) = fed calls ++ fed more := flatMap_append

theorem Session.Tracks.feed (tracks : s.Tracks cap stream) (bytes : Bytes) : (s.call (.feed bytes)).Tracks cap (stream ++ bytes) := by
  refine ⟨tracks.sound.feed, tracks.max, ?_, tracks.within⟩
  show _ = s.yielded.flatMap frameBytes ++ (s.decoder.feed bytes).unread
  rw [FrameDecoder.unread_feed tracks.sound, ← append_assoc, ← tracks.cut]

theorem FrameDecoder.Sound.nextFrame_cases (sound : d.Sound) :
    (∃ frame more, frame.length ≤ d.maxFrame.toNat ∧ d.unread = frameBytes frame ++ more ∧
        d.nextFrame = (.ok (some frame), d.consume (prefixLen + frame.length))) ∨
      (∃ len, Oversize d.maxFrame d.unread len ∧
        d.nextFrame = (.error (.tooLarge len d.maxFrame), { d with poisoned := some (len, d.maxFrame) })) ∨
      (d.nextFrame = (.ok none, d) ∧ d.unread.length < prefixLen + d.maxFrame.toNat) := by
  by_cases complete : ∃ frame more, frame.length ≤ d.maxFrame.toNat ∧ d.unread = frameBytes frame ++ more
  · obtain ⟨frame, more, within, start⟩ := complete
    exact Or.inl ⟨frame, more, within, start, nextFrame_frame sound within start⟩
  · by_cases above : ∃ len, Oversize d.maxFrame d.unread len
    · obtain ⟨len, oversize⟩ := above
      exact Or.inr (Or.inl ⟨len, oversize, nextFrame_oversize sound oversize⟩)
    · have noFrame : ∀ frame more, frame.length ≤ d.maxFrame.toNat → d.unread ≠ frameBytes frame ++ more :=
        fun frame more within start => complete ⟨frame, more, within, start⟩
      exact Or.inr (Or.inr (nextFrame_pending sound noFrame fun len oversize => above ⟨len, oversize⟩))

theorem Session.yielded_nextFrame : (s.call .nextFrame).yielded = s.yielded ++ (frameOf s.decoder.nextFrame.1).toList := by
  show (s.answers ++ [s.decoder.nextFrame.1]).filterMap frameOf = _
  cases frame : frameOf s.decoder.nextFrame.1 <;> simp [Session.yielded, frame]

theorem Session.Tracks.nextFrame (tracks : s.Tracks cap stream) : (s.call .nextFrame).Tracks cap stream := by
  have yielded := Session.yielded_nextFrame (s := s)
  have decoder : (s.call .nextFrame).decoder = s.decoder.nextFrame.2 := rfl
  obtain ⟨frame, more, within, start, next⟩ | ⟨len, oversize, next⟩ | ⟨next, -⟩ := tracks.sound.nextFrame_cases
  all_goals rw [next] at yielded decoder
  · have room : s.decoder.read + (prefixLen + frame.length) ≤ s.decoder.buf.length := by
      have length := congrArg List.length start
      have inside := tracks.sound.inside
      simp only [FrameDecoder.unread, length_drop, length_append, length_frameBytes] at length
      omega
    have rest : (s.call .nextFrame).decoder.unread = more := by
      rw [decoder, FrameDecoder.unread_consume, start, drop_left' length_frameBytes]
    refine ⟨?_, ?_, ?_, ?_⟩
    · rw [decoder]
      exact .consume (FrameDecoder.not_poisoned_of_frame tracks.sound within start) room
    · rw [decoder, FrameDecoder.maxFrame_consume, tracks.max]
    · rw [yielded, rest, flatMap_append, tracks.cut, start]
      simp [frameOf]
    · rw [yielded]
      rw [tracks.max] at within
      simpa [frameOf, or_imp, forall_and] using ⟨tracks.within, within⟩
  · rw [show (frameOf _).toList = [] from rfl, append_nil] at yielded
    refine ⟨?_, by rw [decoder]; exact tracks.max, by rw [yielded, decoder]; exact tracks.cut, by rw [yielded]; exact tracks.within⟩
    rw [decoder]
    refine ⟨tracks.sound.inside, tracks.sound.compacted, ?_⟩
    intro refused max poisoned
    obtain ⟨rfl, rfl⟩ : len = refused ∧ s.decoder.maxFrame = max := by simpa using poisoned
    exact ⟨rfl, oversize⟩
  · rw [show (frameOf _).toList = [] from rfl, append_nil] at yielded
    refine ⟨?_, ?_, ?_, ?_⟩
    · rw [decoder]; exact tracks.sound
    · rw [decoder]; exact tracks.max
    · rw [yielded, decoder]; exact tracks.cut
    · rw [yielded]; exact tracks.within

theorem tracks_session (cap : UInt32) (calls : List Call) : (session cap calls).Tracks cap (fed calls) := by
  induction calls using reverseRecOn with
  | nil => exact ⟨FrameDecoder.sound_new cap, rfl, rfl, by simp [session, Session.yielded]⟩
  | append_singleton calls call ih =>
    rw [session_append, fed_append]
    cases call with
    | feed bytes => simpa [fed, Call.bytes] using ih.feed bytes
    | nextFrame => simpa [fed, Call.bytes] using ih.nextFrame

theorem Session.Tracks.oversize (tracks : s.Tracks cap stream) (oversize : Oversize cap s.decoder.unread len) :
    s.decoder.nextFrame.1 = .error (.tooLarge len cap) := by
  obtain rfl := tracks.max
  rw [FrameDecoder.nextFrame_oversize tracks.sound oversize]

theorem Session.Tracks.pending (tracks : s.Tracks cap stream) (leading : Leading cap s.decoder.unread [] s.decoder.unread)
    (within : ∀ len, ¬ Oversize cap s.decoder.unread len) : s.decoder.nextFrame.1 = .ok none := by
  obtain rfl := tracks.max
  rw [(FrameDecoder.nextFrame_pending tracks.sound leading.ends within).1]

theorem answer_of_leading {rest : Bytes} (leading : Leading cap (fed calls) frames rest) :
    ∃ later, frames = (session cap calls).yielded ++ later ∧
      (∀ frame more, later = frame :: more → answer cap calls = .ok (some frame)) ∧
      (later = [] → (∀ len, Oversize cap rest len → answer cap calls = .error (.tooLarge len cap)) ∧
        ((∀ len, ¬ Oversize cap rest len) → answer cap calls = .ok none)) := by
  have tracks := tracks_session cap calls
  obtain ⟨later, split, left⟩ := leading.after tracks.cut tracks.within
  refine ⟨later, split, ?_, ?_⟩
  · rintro frame more rfl
    have within := left.within frame (mem_cons_self ..)
    rw [← tracks.max] at within
    have start := left.cut
    rw [flatMap_cons, append_assoc] at start
    rw [answer, FrameDecoder.nextFrame_frame tracks.sound within start]
  · rintro rfl
    obtain rfl := left.cut
    exact ⟨fun len oversize => tracks.oversize oversize, fun within => tracks.pending left within⟩

theorem answer_append_error {error : FrameError} (refused : answer cap calls = .error error) (more : List Call) :
    answer cap (calls ++ more) = .error error := by
  induction more using reverseRecOn with
  | nil => rwa [append_nil]
  | append_singleton more call ih =>
    have tracks := tracks_session cap (calls ++ more)
    have after := tracks_session cap (calls ++ (more ++ [call]))
    rw [answer] at ih
    obtain ⟨frame, left, -, -, next⟩ | ⟨len, oversize, next⟩ | ⟨next, -⟩ := tracks.sound.nextFrame_cases
    · rw [next] at ih; cases ih
    · rw [next, tracks.max] at ih
      obtain rfl : FrameError.tooLarge len cap = error := by simpa using ih
      have kept : Oversize cap (session cap (calls ++ (more ++ [call]))).decoder.unread len := by
        rw [tracks.max] at oversize
        rw [← append_assoc, session_append]
        cases call with
        | feed bytes =>
          show Oversize cap ((session cap (calls ++ more)).decoder.feed bytes).unread len
          rw [FrameDecoder.unread_feed tracks.sound]
          exact ⟨oversize.1, oversize.2.trans (prefix_append _ _)⟩
        | nextFrame =>
          show Oversize cap (session cap (calls ++ more)).decoder.nextFrame.2.unread len
          rw [next]
          exact oversize
      exact after.oversize kept
    · rw [next] at ih; cases ih

theorem yielded_replicate {rest : List Bytes} {left : Bytes} (leading : Leading cap (fed calls) frames left)
    (split : frames = (session cap calls).yielded ++ rest) :
    (session cap (calls ++ replicate rest.length .nextFrame)).yielded = frames := by
  induction rest generalizing calls with
  | nil => rw [length_nil, replicate_zero, append_nil, split, append_nil]
  | cons frame rest ih =>
    obtain ⟨later, parts, takes, -⟩ := answer_of_leading leading
    obtain rfl : later = frame :: rest := append_cancel_left (parts.symm.trans split)
    have grown : (session cap (calls ++ [.nextFrame])).yielded = (session cap calls).yielded ++ [frame] := by
      rw [session_append]
      show ((session cap calls).call .nextFrame).yielded = _
      rw [Session.yielded_nextFrame, ← answer, takes frame rest rfl]
      rfl
    rw [length_cons, replicate_succ, append_cons]
    apply ih
    · rwa [fed_append, show fed [Call.nextFrame] = [] from rfl, append_nil]
    · rw [grown, split, append_assoc, singleton_append]

theorem leading_encoded (within : ∀ payload ∈ payloads, payload.length ≤ cap.toNat) :
    Leading cap (payloads.flatMap frameBytes) payloads [] := by
  refine ⟨(append_nil _).symm, within, ?_⟩
  intro frame more _ same
  have length := congrArg List.length same
  rw [length_append, length_frameBytes, prefixLen, length_nil] at length
  omega

end Sessions

section Memory

def lastChunk (calls : List Call) : Nat :=
  calls.foldl (fun last call => match call with | .feed bytes => bytes.length | .nextFrame => last) 0

/-- Only the first call, or one right after a `nextFrame` that found no complete frame, feeds. -/
def Patient (cap : UInt32) (calls : List Call) : Prop :=
  ∀ before bytes more, calls = before ++ .feed bytes :: more →
    before = [] ∨ ∃ earlier, before = earlier ++ [.nextFrame] ∧ answer cap earlier = .ok none

variable {more : List Call} {bytes : Bytes}

theorem Patient.init (patient : Patient cap (calls ++ more)) : Patient cap calls := by
  intro before bytes left split
  apply patient before bytes (left ++ more)
  rw [split, append_assoc, cons_append]

theorem length_le_of_pending (pending : answer cap calls = .ok none) :
    (session cap (calls ++ [.nextFrame])).decoder.buf.length ≤ cap.toNat + prefixLen + compactThreshold := by
  have tracks := tracks_session cap calls
  rw [answer] at pending
  rw [session_append]
  show (session cap calls).decoder.nextFrame.2.buf.length ≤ _
  obtain ⟨frame, left, -, -, next⟩ | ⟨len, -, next⟩ | ⟨next, short⟩ := tracks.sound.nextFrame_cases
  · rw [next] at pending; cases pending
  · rw [next] at pending; cases pending
  · have compacted := tracks.sound.compacted
    rw [next]
    rw [tracks.max, FrameDecoder.unread, length_drop] at short
    show (session cap calls).decoder.buf.length ≤ _
    omega

theorem length_nextFrame_le (sound : d.Sound) : d.nextFrame.2.buf.length ≤ d.buf.length := by
  obtain ⟨frame, left, -, -, next⟩ | ⟨len, -, next⟩ | ⟨next, -⟩ := sound.nextFrame_cases
  all_goals rw [next]
  exact FrameDecoder.length_consume_le

theorem length_le_of_patient (patient : Patient cap calls) :
    (session cap calls).decoder.buf.length ≤ cap.toNat + prefixLen + compactThreshold + lastChunk calls := by
  induction calls using reverseRecOn with
  | nil => exact Nat.zero_le _
  | append_singleton calls call ih =>
    have before := ih patient.init
    rw [lastChunk, foldl_append, ← lastChunk, session_append]
    cases call with
    | feed bytes =>
      show ((session cap calls).decoder.buf ++ bytes).length ≤ _
      rw [length_append]
      obtain rfl | ⟨earlier, rfl, pending⟩ := patient calls bytes [] rfl
      · show 0 + bytes.length ≤ _ + bytes.length
        omega
      · have small := length_le_of_pending pending
        show _ ≤ _ + bytes.length
        omega
    | nextFrame => exact (length_nextFrame_le (tracks_session cap calls).sound).trans before

end Memory

/-- However a stream is cut into chunks and however the calls interleave, a decoder gives the leading frames of what
    it was fed, then reports the length that ends them for good; what a sender encoded comes back; and one who feeds
    only when no frame is complete has it hold at most one frame and what compaction leaves beside the last chunk. -/
theorem decodes_however_cut (cap : UInt32) :
    (∀ calls, (∃ frames rest, Leading cap (fed calls) frames rest) ∧
      ∀ frames rest, Leading cap (fed calls) frames rest →
        ∃ later, frames = (session cap calls).yielded ++ later ∧
          (∀ frame more, later = frame :: more → answer cap calls = .ok (some frame)) ∧
          (later = [] → (∀ len, Oversize cap rest len → answer cap calls = .error (.tooLarge len cap)) ∧
            ((∀ len, ¬ Oversize cap rest len) → answer cap calls = .ok none))) ∧
    (∀ calls error, answer cap calls = .error error → ∀ more, answer cap (calls ++ more) = .error error) ∧
    (∀ payloads, (∀ payload ∈ payloads, payload.length ≤ cap.toNat) →
      ∃ wire, encodeFrames payloads = some wire ∧
        ∀ calls, fed calls = wire → ∃ missing, payloads = (session cap calls).yielded ++ missing ∧
          (session cap (calls ++ replicate missing.length .nextFrame)).yielded = payloads) ∧
    (∀ calls, Patient cap calls →
      (session cap calls).decoder.buf.length ≤ cap.toNat + 4 + 64 * 1024 + lastChunk calls) := by
  refine ⟨?_, ?_, ?_, ?_⟩
  · intro calls
    exact ⟨exists_leading cap (fed calls), fun frames rest leading => answer_of_leading leading⟩
  · intro calls error refused more
    exact answer_append_error refused more
  · intro payloads within
    refine ⟨_, encodeFrames_eq within, ?_⟩
    intro calls sent
    have leading : Leading cap (fed calls) payloads [] := sent ▸ leading_encoded within
    obtain ⟨missing, split, -⟩ := answer_of_leading leading
    exact ⟨missing, split, yielded_replicate leading split⟩
  · intro calls patient
    exact length_le_of_patient patient

/-- A frame cut inside its prefix and inside its body, and then a length above the cap. -/
theorem decodes_cut_in_prefix :
    (∃ later, [[7, 8]] = (session 3 [.feed [2, 0], .nextFrame, .feed [0, 0, 7], .nextFrame, .feed [8, 9, 0, 0, 0]]).yielded ++ later ∧
      (∀ frame more, later = frame :: more →
        answer 3 [.feed [2, 0], .nextFrame, .feed [0, 0, 7], .nextFrame, .feed [8, 9, 0, 0, 0]] = .ok (some frame))) ∧
    (session 3 [.feed [2, 0], .nextFrame]).decoder.buf.length ≤ 3 + 4 + 64 * 1024 + 2 := by
  obtain ⟨answers, -, -, memory⟩ := decodes_however_cut 3
  constructor
  · have ends : ∀ (frame more : Bytes), frame.length ≤ (3 : UInt32).toNat → ([9, 0, 0, 0] : Bytes) ≠ frameBytes frame ++ more := by
      intro frame more within start
      obtain ⟨-, low, -⟩ := u32At_frameBytes more within
      rw [← start] at low
      exact low (by decide)
    obtain ⟨later, split, takes, -⟩ := (answers [.feed [2, 0], .nextFrame, .feed [0, 0, 7], .nextFrame, .feed [8, 9, 0, 0, 0]]).2
      [[7, 8]] [9, 0, 0, 0] ⟨by decide, by decide, ends⟩
    exact ⟨later, split, takes⟩
  · apply memory
    intro before bytes more split
    cases before with
    | nil => exact Or.inl rfl
    | cons first before =>
      cases before with
      | nil => simp at split
      | cons second before => simp at split

end Goz.Proto
