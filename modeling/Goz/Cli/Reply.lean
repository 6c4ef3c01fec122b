import Goz.Library.Loop
import Goz.Proto.Frame
import Goz.Proto.Results

namespace Goz.Cli

open Proto List

variable {n : Nat}

/-- In nanoseconds, as every time here. -/
def readDeadline : Nat := 30 * 10 ^ 9

def pollInterval : Nat := 5 * 10 ^ 6

def bufLen : Nat := 256 * 1024

inductive ReplyError where
  | silent
  | closed
  | read (message : String)
  | malformed (message : String)
deriving DecidableEq

/-- The daemon's end of the connection: what has become readable by each time, when a poll finds the pipe closed, and how
    a read ends at a time and after so many bytes, with an error or with the number of bytes it is willing to give. -/
structure Pipe where
  arrived : Nat → Bytes
  grows : ∀ {earlier later : Nat}, earlier ≤ later → arrived earlier <+: arrived later
  gone : Nat → Bool
  reads : Nat → Nat → Except String Nat

/-- `Replies` with the clock and with how far, and when last, it has read the pipe. -/
structure Replies where
  decoder : FrameDecoder
  clock : Nat
  consumed : Nat
  lastRead : Option Nat

def Replies.new (clock : Nat) : Replies := ⟨.new (UInt32.ofNat maxServerFrame), clock, 0, none⟩

def Replies.spend (r : Replies) (time : Nat) : Replies := { r with clock := r.clock + time }

def frameErrorText : FrameError → String
  | .tooLarge len max => "frame of " ++ toString len.toNat ++ " bytes exceeds cap " ++ toString max.toNat

section Waiting

variable {Response : Type*} (decode : Bytes → Except String Response) (pipe : Pipe)

def decoded (frame : Bytes) : Except ReplyError Response := (decode frame).mapError .malformed

def Pipe.available (r : Replies) : Nat := (pipe.arrived r.clock).length - r.consumed

def poll (r : Replies) (deadline : Nat) : (Replies × Nat) ⊕ (Except ReplyError Response × Replies) :=
  if pipe.gone r.clock then .inr (.error .closed, r)
  else if pipe.available r = 0 then
    if deadline < r.clock then .inr (.error .silent, r) else .inl ({ r with clock := r.clock + pollInterval }, deadline)
  else
    match pipe.reads r.clock r.consumed with
    | .error message => .inr (.error (.read message), r)
    | .ok willing =>
      let n := min willing (min (pipe.available r) bufLen)
      if n = 0 then .inr (.error .closed, r)
      else
        .inl ({ r with decoder := r.decoder.feed (((pipe.arrived r.clock).drop r.consumed).take n)
                       consumed := r.consumed + n
                       lastRead := some r.clock },
          r.clock + readDeadline)

def turn (s : Replies × Nat) : (Replies × Nat) ⊕ (Except ReplyError Response × Replies) :=
  match s.1.decoder.nextFrame with
  | (.ok (some frame), decoder) => .inr (decoded decode frame, { s.1 with decoder := decoder })
  | (.ok none, decoder) => poll pipe { s.1 with decoder := decoder } s.2
  | (.error e, decoder) => .inr (.error (.malformed (frameErrorText e)), { s.1 with decoder := decoder })

def Replies.next (fuel : Nat) (r : Replies) : Option (Except ReplyError Response × Replies) :=
  Loop.loop (turn decode pipe) fuel (r, r.clock + readDeadline)

end Waiting

section Following

variable {calls : List Call} {cap : UInt32}

def serverCap : UInt32 := UInt32.ofNat maxServerFrame

/-- The replies are what a decoder's calls leave: fed with what was read of the pipe, and having given `taken`. -/
structure Drives (pipe : Pipe) (taken : List Bytes) (calls : List Call) (r : Replies) : Prop where
  decoder : r.decoder = (session serverCap calls).decoder
  bytes : fed calls = (pipe.arrived r.clock).take r.consumed
  given : (session serverCap calls).yielded = taken
  inside : r.consumed ≤ (pipe.arrived r.clock).length

def Follows (pipe : Pipe) (taken : List Bytes) (r : Replies) : Prop := ∃ calls, Drives pipe taken calls r

variable {pipe : Pipe} {taken frames : List Bytes} {r : Replies} {stream longer rest : Bytes} {len : UInt32}

theorem follows_new (pipe : Pipe) (clock : Nat) : Follows pipe [] (.new clock) :=
  ⟨[], rfl, by simp [fed, Replies.new], rfl, Nat.zero_le _⟩

theorem Follows.spend (follows : Follows pipe taken r) (time : Nat) : Follows pipe taken (r.spend time) := by
  obtain ⟨calls, decoder, bytes, given, inside⟩ := follows
  have grows : pipe.arrived r.clock <+: pipe.arrived (r.clock + time) := pipe.grows (Nat.le_add_right _ _)
  refine ⟨calls, decoder, ?_, given, inside.trans grows.length_le⟩
  obtain ⟨more, longer⟩ := grows
  rw [bytes]
  show _ = (pipe.arrived (r.clock + time)).take r.consumed
  rw [← longer, take_append_of_le_length inside]

theorem Drives.nextFrame (drives : Drives pipe taken calls r) :
    Drives pipe (taken ++ (frameOf r.decoder.nextFrame.1).toList) (calls ++ [.nextFrame])
      { r with decoder := r.decoder.nextFrame.2 } := by
  refine ⟨?_, ?_, ?_, drives.inside⟩
  · rw [session_append, drives.decoder]
    rfl
  · rw [fed_append, drives.bytes]
    exact append_nil _
  · rw [session_append, ← drives.given, drives.decoder]
    exact Session.yielded_nextFrame

theorem Drives.read (drives : Drives pipe taken calls r) (most : n ≤ pipe.available r)
    (lastRead : Option Nat) :
    Drives pipe taken (calls ++ [.feed (((pipe.arrived r.clock).drop r.consumed).take n)])
      ⟨r.decoder.feed (((pipe.arrived r.clock).drop r.consumed).take n), r.clock, r.consumed + n, lastRead⟩ := by
  refine ⟨?_, ?_, ?_, ?_⟩
  · rw [session_append, drives.decoder]
    rfl
  · rw [fed_append, drives.bytes, take_add]
    simp [fed, Call.bytes]
  · rw [session_append]
    exact drives.given
  · have inside := drives.inside
    rw [Pipe.available] at most
    show r.consumed + n ≤ (pipe.arrived r.clock).length
    omega

theorem leading_mono {more : List Bytes} {left : Bytes} (shorter : Leading cap stream frames rest)
    (leading : Leading cap longer more left) (grown : stream <+: longer) : frames <+: more := by
  obtain ⟨bytes, rfl⟩ := grown
  have cut : stream ++ bytes = frames.flatMap frameBytes ++ (rest ++ bytes) := by rw [shorter.cut, append_assoc]
  obtain ⟨later, split, -⟩ := leading.after cut shorter.within
  exact ⟨later, split.symm⟩

theorem leading_of_oversize (leading : Leading cap stream frames rest) (oversize : Oversize cap rest len) (more : Bytes) :
    Leading cap (stream ++ more) frames (rest ++ more) ∧ Oversize cap (rest ++ more) len := by
  have still : Oversize cap (rest ++ more) len := ⟨oversize.1, oversize.2.trans (prefix_append _ _)⟩
  refine ⟨⟨by rw [leading.cut, append_assoc], leading.within, ?_⟩, still⟩
  intro frame left within start
  obtain ⟨-, low, -⟩ := u32At_frameBytes left within
  rw [← start, (u32At_oversize still).2] at low
  exact low oversize.1

theorem Drives.arrived (drives : Drives pipe taken calls r) : fed calls <+: pipe.arrived r.clock := by
  rw [drives.bytes]
  exact take_prefix _ _

theorem Drives.sound (drives : Drives pipe taken calls r) : r.decoder.Sound ∧ r.decoder.maxFrame = serverCap := by
  rw [drives.decoder]
  exact ⟨(tracks_session serverCap calls).sound, (tracks_session serverCap calls).max⟩

theorem Follows.leading (follows : Follows pipe taken r) (all : Leading serverCap (pipe.arrived r.clock) frames rest) :
    taken <+: frames := by
  obtain ⟨calls, drives⟩ := follows
  obtain ⟨early, left, leading⟩ := exists_leading serverCap (fed calls)
  obtain ⟨later, split, -⟩ := answer_of_leading leading
  rw [drives.given] at split
  have whole := leading_mono leading all drives.arrived
  rw [split] at whole
  exact (prefix_append _ _).trans whole

/-- What a turn finds in the decoder: the next frame, a length that is refused, or nothing complete. -/
theorem Follows.nextFrame_cases (follows : Follows pipe taken r) :
    (∃ frame, r.decoder.nextFrame.1 = .ok (some frame) ∧
        Follows pipe (taken ++ [frame]) { r with decoder := r.decoder.nextFrame.2 }) ∨
      (∃ len rest, r.decoder.nextFrame.1 = .error (.tooLarge len serverCap) ∧
        Follows pipe taken { r with decoder := r.decoder.nextFrame.2 } ∧
        Leading serverCap (pipe.arrived r.clock) taken rest ∧ Oversize serverCap rest len) ∨
      (r.decoder.nextFrame = (.ok none, r.decoder) ∧ r.decoder.unread.length < prefixLen + serverCap.toNat ∧
        ∃ rest, Leading serverCap ((pipe.arrived r.clock).take r.consumed) taken rest ∧ ∀ len, ¬ Oversize serverCap rest len) := by
  obtain ⟨calls, drives⟩ := follows
  have after := drives.nextFrame
  obtain ⟨sound, max⟩ := drives.sound
  obtain ⟨frames, rest, leading⟩ := exists_leading serverCap (fed calls)
  obtain ⟨later, split, takes, ends⟩ := answer_of_leading leading
  rw [drives.given] at split
  rw [answer, ← drives.decoder] at takes ends
  cases later with
  | cons frame more =>
    have given := takes frame more rfl
    rw [given] at after
    exact Or.inl ⟨frame, given, _, after⟩
  | nil =>
    rw [append_nil] at split
    subst split
    obtain ⟨refuses, waits⟩ := ends rfl
    by_cases above : ∃ len, Oversize serverCap rest len
    · obtain ⟨len, oversize⟩ := above
      have given := refuses len oversize
      obtain ⟨more, whole⟩ := drives.arrived
      obtain ⟨longer, still⟩ := leading_of_oversize leading oversize more
      rw [whole] at longer
      rw [given, show (frameOf _).toList = [] from rfl, append_nil] at after
      exact Or.inr (Or.inl ⟨len, _, given, ⟨_, after⟩, longer, still⟩)
    · have given := waits fun len oversize => above ⟨len, oversize⟩
      obtain ⟨frame, left, -, -, next⟩ | ⟨len, -, next⟩ | ⟨next, short⟩ := sound.nextFrame_cases
      · rw [next] at given; cases given
      · rw [next] at given; cases given
      · rw [drives.bytes] at leading
        rw [max] at short
        exact Or.inr (Or.inr ⟨next, short, rest, leading, fun len oversize => above ⟨len, oversize⟩⟩)

end Following

section Deadline

variable {rest : Bytes} {since : Nat}

/-- Nothing arrives after `since`, for as long as a wait may take that began at `start`. -/
def Quiet (pipe : Pipe) (start since : Nat) : Prop :=
  ∀ time, since ≤ time → time ≤ max start since + readDeadline + 2 * pollInterval → pipe.arrived time = pipe.arrived since

def ArmedAt (start r : Replies) (armed : Nat) : Prop :=
  armed = start.clock ∧ r.consumed = start.consumed ∨ r.lastRead = some armed ∧ start.consumed < r.consumed

/-- What holds at each turn of a wait that began at `start`. The last poll before the clock's time found nothing, unless
    the deadline was armed just now. -/
structure Waits (pipe : Pipe) (taken : List Bytes) (start : Replies) (armed : Nat) (s : Replies × Nat) : Prop where
  follows : Follows pipe taken s.1
  deadline : s.2 = armed + readDeadline
  since : start.clock ≤ armed
  before : armed ≤ s.1.clock
  bounded : s.1.clock ≤ armed + readDeadline + pollInterval
  armedAt : ArmedAt start s.1 armed
  polled : s.1.clock = armed ∨
    armed + pollInterval ≤ s.1.clock ∧ (pipe.arrived (s.1.clock - pollInterval)).length ≤ s.1.consumed
  soon : ∀ since, Quiet pipe start.clock since → armed ≤ max start.clock since + pollInterval

variable {pipe : Pipe} {taken : List Bytes} {start : Replies} {armed : Nat} {s : Replies × Nat}

theorem waits_start (follows : Follows pipe taken start) : Waits pipe taken start start.clock (start, start.clock + readDeadline) where
  follows := follows
  deadline := rfl
  since := Nat.le_refl _
  before := Nat.le_refl _
  bounded := Nat.le_add_right_of_le (Nat.le_add_right _ _)
  armedAt := Or.inl ⟨rfl, rfl⟩
  polled := Or.inl rfl
  soon := fun _ _ => Nat.le_add_right_of_le (Nat.le_max_left _ _)

variable (waits : Waits pipe taken start armed s)
include waits

theorem Waits.pause (empty : pipe.available s.1 = 0) (early : ¬ s.2 < s.1.clock) :
    Waits pipe taken start armed (s.1.spend pollInterval, s.2) := by
  have deadline := waits.deadline
  have before := waits.before
  refine ⟨waits.follows.spend pollInterval, deadline, waits.since, ?_, ?_, waits.armedAt, Or.inr ⟨?_, ?_⟩, waits.soon⟩
  all_goals simp only [Replies.spend]
  · omega
  · omega
  · omega
  · rw [Pipe.available] at empty
    rw [Nat.add_sub_cancel]
    omega

theorem Waits.reading_soon (some_ : pipe.available s.1 ≠ 0)
    (quiet : Quiet pipe start.clock since) : s.1.clock ≤ max start.clock since + pollInterval := by
  have soon := waits.soon since quiet
  obtain now | ⟨paused, nothing⟩ := waits.polled
  · omega
  · by_contra late
    have bounded := waits.bounded
    have same : pipe.arrived (s.1.clock - pollInterval) = pipe.arrived s.1.clock := by
      rw [quiet (s.1.clock - pollInterval) (by omega) (by omega), quiet s.1.clock (by omega) (by omega)]
    rw [same] at nothing
    rw [Pipe.available] at some_
    omega

theorem Waits.read (most : n ≤ pipe.available s.1) (some_ : n ≠ 0) :
    Waits pipe taken start s.1.clock
      (⟨s.1.decoder.feed (((pipe.arrived s.1.clock).drop s.1.consumed).take n), s.1.clock, s.1.consumed + n, some s.1.clock⟩,
        s.1.clock + readDeadline) := by
  obtain ⟨calls, drives⟩ := waits.follows
  have grown : start.consumed ≤ s.1.consumed := by
    obtain ⟨-, same⟩ | ⟨-, more⟩ := waits.armedAt <;> omega
  refine ⟨⟨_, drives.read most _⟩, rfl, waits.since.trans waits.before, Nat.le_refl _, ?_, Or.inr ⟨rfl, ?_⟩, Or.inl rfl, ?_⟩
  · show s.1.clock ≤ s.1.clock + readDeadline + pollInterval
    omega
  · show start.consumed < s.1.consumed + n
    omega
  · intro since quiet
    exact waits.reading_soon (by omega) quiet

omit waits

/-- How a wait ends: with the next frame, with a length that is refused after all frames before it, after a silence
    longer than the deadline with every frame of what arrived taken, or because the pipe failed. -/
inductive Ends {Response : Type*} (decode : Bytes → Except String Response) (pipe : Pipe) (taken : List Bytes) (start r : Replies) :
    Except ReplyError Response → Prop where
  | frame {frame : Bytes}
      (next : ∀ frames rest, Leading serverCap (pipe.arrived r.clock) frames rest → taken ++ [frame] <+: frames) :
      Ends decode pipe taken start r (decoded decode frame)
  | refused {len : UInt32} {rest : Bytes} (last : Leading serverCap (pipe.arrived r.clock) taken rest)
      (above : Oversize serverCap rest len) :
      Ends decode pipe taken start r (.error (.malformed (frameErrorText (.tooLarge len serverCap))))
  | silent {armed : Nat} {rest : Bytes} (since : start.clock ≤ armed) (armedAt : ArmedAt start r armed)
      (long : armed + readDeadline < r.clock)
      (nothing : ∀ time, armed ≤ time → time ≤ r.clock → (pipe.arrived time).length ≤ r.consumed)
      (last : Leading serverCap (pipe.arrived r.clock) taken rest) (within : ∀ len, ¬ Oversize serverCap rest len) :
      Ends decode pipe taken start r (.error .silent)
  | closed (failed : pipe.gone r.clock ∨ pipe.reads r.clock r.consumed = .ok 0) : Ends decode pipe taken start r (.error .closed)
  | read {message : String} (failed : pipe.reads r.clock r.consumed = .error message) :
      Ends decode pipe taken start r (.error (.read message))

section Turns

variable {Response : Type*} {decode : Bytes → Except String Response} {done : Except ReplyError Response × Replies}

theorem poll_cases (pipe : Pipe) (r : Replies) (deadline : Nat) :
    (@poll Response pipe r deadline = .inl (r.spend pollInterval, deadline) ∧
        pipe.available r = 0 ∧ ¬ deadline < r.clock) ∨
      (∃ n, n ≤ pipe.available r ∧ n ≠ 0 ∧ @poll Response pipe r deadline =
        .inl (⟨r.decoder.feed (((pipe.arrived r.clock).drop r.consumed).take n), r.clock, r.consumed + n, some r.clock⟩,
          r.clock + readDeadline)) ∨
      (@poll Response pipe r deadline = .inr (.error .silent, r) ∧ pipe.available r = 0 ∧ deadline < r.clock) ∨
      (@poll Response pipe r deadline = .inr (.error .closed, r) ∧
        (pipe.gone r.clock ∨ pipe.reads r.clock r.consumed = .ok 0)) ∨
      (∃ message, @poll Response pipe r deadline = .inr (.error (.read message), r) ∧
        pipe.reads r.clock r.consumed = .error message) := by
  unfold poll
  by_cases gone : pipe.gone r.clock
  · exact Or.inr (Or.inr (Or.inr (Or.inl ⟨if_pos gone, Or.inl gone⟩)))
  rw [if_neg gone]
  by_cases empty : pipe.available r = 0
  · rw [if_pos empty]
    by_cases late : deadline < r.clock
    · exact Or.inr (Or.inr (Or.inl ⟨if_pos late, empty, late⟩))
    · exact Or.inl ⟨if_neg late, empty, late⟩
  rw [if_neg empty]
  cases reads : pipe.reads r.clock r.consumed with
  | error message => exact Or.inr (Or.inr (Or.inr (Or.inr ⟨message, rfl, rfl⟩)))
  | ok willing =>
    by_cases zero : min willing (min (pipe.available r) bufLen) = 0
    · have unwilling : willing = 0 := by
        rw [bufLen] at zero
        omega
      exact Or.inr (Or.inr (Or.inr (Or.inl ⟨if_pos zero, Or.inr (by rw [unwilling])⟩)))
    · exact Or.inr (Or.inl ⟨_, by omega, zero, if_neg zero⟩)

theorem turn_of_pending (pending : s.1.decoder.nextFrame = (.ok none, s.1.decoder)) : turn decode pipe s = poll pipe s.1 s.2 := by
  rw [turn, pending]

/-- Bytes the decoder can still be fed before it has a frame or refuses one, and the time left until then. -/
def patience (s : Replies × Nat) : Nat :=
  (prefixLen + serverCap.toNat - s.1.decoder.unread.length) * (readDeadline + pollInterval + 2) +
    (s.2 + pollInterval + 1 - s.1.clock)

theorem patience_pause (early : ¬ s.2 < s.1.clock) : patience (s.1.spend pollInterval, s.2) < patience s := by
  have positive : 0 < pollInterval := by decide
  simp only [patience, Replies.spend]
  omega

theorem Waits.patience_read (waits : Waits pipe taken start armed s) (most : n ≤ pipe.available s.1) (some_ : n ≠ 0)
    (short : s.1.decoder.unread.length < prefixLen + serverCap.toNat) :
    patience (⟨s.1.decoder.feed (((pipe.arrived s.1.clock).drop s.1.consumed).take n), s.1.clock, s.1.consumed + n, some s.1.clock⟩,
      s.1.clock + readDeadline) < patience s := by
  obtain ⟨calls, drives⟩ := waits.follows
  have length : (((pipe.arrived s.1.clock).drop s.1.consumed).take n).length = n := by
    rw [Pipe.available] at most
    simpa using most
  simp only [patience]
  rw [FrameDecoder.unread_feed drives.sound.1, length_append, length]
  set room := prefixLen + serverCap.toNat
  set unread := s.1.decoder.unread.length
  have fewer : (room - (unread + n) + 1) * (readDeadline + pollInterval + 2) ≤ (room - unread) * (readDeadline + pollInterval + 2) :=
    Nat.mul_le_mul_right _ (by omega)
  rw [Nat.add_mul] at fewer
  omega

theorem Waits.turn_again (waits : Waits pipe taken start armed s) {again : Replies × Nat}
    (next : turn decode pipe s = .inl again) : (∃ armed, Waits pipe taken start armed again) ∧ patience again < patience s := by
  obtain ⟨frame, given, -⟩ | ⟨len, rest, given, -⟩ | ⟨pending, short, -⟩ := waits.follows.nextFrame_cases
  · rw [turn, ← Prod.mk.eta (p := s.1.decoder.nextFrame), given] at next
    cases next
  · rw [turn, ← Prod.mk.eta (p := s.1.decoder.nextFrame), given] at next
    cases next
  · rw [turn_of_pending pending] at next
    obtain ⟨found, empty, early⟩ | ⟨n, most, some_, found⟩ | ⟨found, -⟩ | ⟨found, -⟩ | ⟨message, found, -⟩ :=
      @poll_cases Response pipe s.1 s.2
    all_goals rw [found] at next
    all_goals cases next
    · exact ⟨⟨armed, waits.pause empty early⟩, patience_pause early⟩
    · exact ⟨⟨_, waits.read most some_⟩, waits.patience_read most some_ short⟩

inductive Failure : Except ReplyError Response → Prop where
  | silent : Failure (.error .silent)
  | closed : Failure (.error .closed)
  | read (message : String) : Failure (.error (.read message))
  | refused (e : FrameError) : Failure (.error (.malformed (frameErrorText e)))

/-- What a wait leaves: the frames taken are those before it, and the one it gives if it gives one. -/
structure Ended (decode : Bytes → Except String Response) (pipe : Pipe) (taken : List Bytes) (start : Replies)
    (done : Except ReplyError Response × Replies) : Prop where
  ends : Ends decode pipe taken start done.2 done.1
  gives : (∃ frame, Follows pipe (taken ++ [frame]) done.2 ∧ done.1 = decoded decode frame) ∨
    Follows pipe taken done.2 ∧ Failure done.1
  soon : ∀ since, Quiet pipe start.clock since →
    done.2.clock ≤ max start.clock since + readDeadline + 2 * pollInterval

variable (waits : Waits pipe taken start armed s)
include waits

theorem Waits.clock_soon (quiet : Quiet pipe start.clock since) :
    s.1.clock ≤ max start.clock since + readDeadline + 2 * pollInterval := by
  have soon := waits.soon since quiet
  have bounded := waits.bounded
  omega

theorem Waits.silent (empty : pipe.available s.1 = 0) (late : s.2 < s.1.clock)
    (last : Leading serverCap ((pipe.arrived s.1.clock).take s.1.consumed) taken rest)
    (within : ∀ len, ¬ Oversize serverCap rest len) : Ends decode pipe taken start s.1 (.error .silent) := by
  have all : (pipe.arrived s.1.clock).length ≤ s.1.consumed := by
    rw [Pipe.available] at empty
    omega
  rw [take_of_length_le all] at last
  rw [waits.deadline] at late
  refine .silent waits.since waits.armedAt late ?_ last within
  intro time _ past
  exact (pipe.grows past).length_le.trans all

theorem Waits.turn_ends (next : turn decode pipe s = .inr done) : Ended decode pipe taken start done := by
  have soon : ∀ since, Quiet pipe start.clock since → s.1.clock ≤ max start.clock since + readDeadline + 2 * pollInterval :=
    fun since quiet => waits.clock_soon quiet
  have follows := waits.follows
  obtain ⟨frame, given, after⟩ | ⟨len, rest, given, after, last, above⟩ | ⟨pending, -, rest, last, within⟩ := follows.nextFrame_cases
  · rw [turn, ← Prod.mk.eta (p := s.1.decoder.nextFrame), given] at next
    cases next
    exact ⟨.frame fun frames rest all => after.leading all, Or.inl ⟨frame, after, rfl⟩, soon⟩
  · rw [turn, ← Prod.mk.eta (p := s.1.decoder.nextFrame), given] at next
    cases next
    exact ⟨.refused last above, Or.inr ⟨after, .refused _⟩, soon⟩
  · rw [turn_of_pending pending] at next
    obtain ⟨found, -⟩ | ⟨n, -, -, found⟩ | ⟨found, empty, late⟩ | ⟨found, failed⟩ | ⟨message, found, failed⟩ :=
      @poll_cases Response pipe s.1 s.2
    all_goals rw [found] at next
    all_goals cases next
    · exact ⟨waits.silent empty late last within, Or.inr ⟨follows, .silent⟩, soon⟩
    · exact ⟨.closed failed, Or.inr ⟨follows, .closed⟩, soon⟩
    · exact ⟨.read failed, Or.inr ⟨follows, .read message⟩, soon⟩

omit waits

theorem next_returns (follows : Follows pipe taken start) :
    ∃ done, ∀ fuel, patience (start, start.clock + readDeadline) < fuel → start.next decode pipe fuel = some done := by
  apply Loop.ends (fun s => ∃ armed, Waits pipe taken start armed s) patience ?_ ⟨_, waits_start follows⟩
  rintro s again ⟨armed, waits⟩ next
  exact waits.turn_again next

theorem next_ended (follows : Follows pipe taken start) {fuel : Nat}
    (returned : start.next decode pipe fuel = some done) : Ended decode pipe taken start done := by
  apply Loop.correct (fun s => ∃ armed, Waits pipe taken start armed s) ?_ ?_ ⟨_, waits_start follows⟩ returned
  · rintro s again ⟨armed, waits⟩ next
    exact (waits.turn_again next).1
  · rintro s done ⟨armed, waits⟩ next
    exact waits.turn_ends next

end Turns

variable {Response : Type*} {decode : Bytes → Except String Response} {r : Replies}

/-- What `next` has answered on one connection, oldest first, with any time spent before each call. -/
inductive Reached (decode : Bytes → Except String Response) (pipe : Pipe) : List (Except ReplyError Response) → Replies → Prop where
  | start (clock : Nat) : Reached decode pipe [] (.new clock)
  | call {results : List (Except ReplyError Response)} {r after : Replies} {result : Except ReplyError Response} {fuel : Nat}
      (before : Reached decode pipe results r) (time : Nat)
      (returned : (r.spend time).next decode pipe fuel = some (result, after)) :
      Reached decode pipe (results ++ [result]) after

/-- The results are the frames in order, with nothing but failures between them. -/
inductive Gives (decode : Bytes → Except String Response) : List Bytes → List (Except ReplyError Response) → Prop where
  | start : Gives decode [] []
  | frame {taken : List Bytes} {results : List (Except ReplyError Response)} (before : Gives decode taken results) (frame : Bytes) :
      Gives decode (taken ++ [frame]) (results ++ [decoded decode frame])
  | failure {taken : List Bytes} {results : List (Except ReplyError Response)} {result : Except ReplyError Response}
      (before : Gives decode taken results) (failed : Failure result) : Gives decode taken (results ++ [result])

theorem Reached.follows {results : List (Except ReplyError Response)} (reached : Reached decode pipe results r) :
    ∃ taken, Gives decode taken results ∧ Follows pipe taken r := by
  induction reached with
  | start clock => exact ⟨[], .start, follows_new pipe clock⟩
  | call before time returned ih =>
    obtain ⟨taken, gives, follows⟩ := ih
    have ended := next_ended (follows.spend time) returned
    obtain ⟨frame, after, rfl⟩ | ⟨after, failed⟩ := ended.gives
    · exact ⟨taken ++ [frame], gives.frame frame, after⟩
    · exact ⟨taken, gives.failure failed, after⟩

def Pipe.Open (pipe : Pipe) : Prop :=
  (∀ time, pipe.gone time = false) ∧ ∀ time consumed, ∃ willing, pipe.reads time consumed = .ok (willing + 1)

theorem Ends.eq_silent {result : Except ReplyError Response} {later : Bytes}
    (ends : Ends decode pipe taken start r result) (up : pipe.Open) (grown : pipe.arrived r.clock <+: later)
    (last : Leading serverCap later taken rest) (within : ∀ len, ¬ Oversize serverCap rest len) : result = .error .silent := by
  cases ends with
  | frame next =>
    obtain ⟨frames, left, leading⟩ := exists_leading serverCap (pipe.arrived r.clock)
    have too_long := ((next frames left leading).trans (leading_mono leading last grown)).length_le
    simp at too_long
  | @refused len left early above =>
    obtain ⟨more, rfl⟩ := grown
    obtain ⟨longer, still⟩ := leading_of_oversize early above more
    obtain rfl : left ++ more = rest := append_cancel_left (longer.cut.symm.trans last.cut)
    exact absurd still (within len)
  | silent => rfl
  | closed failed =>
    obtain gone | nothing := failed
    · rw [up.1] at gone
      cases gone
    · obtain ⟨willing, reads⟩ := up.2 r.clock r.consumed
      rw [reads] at nothing
      cases nothing
  | read failed =>
    obtain ⟨willing, reads⟩ := up.2 r.clock r.consumed
    rw [reads] at failed
    cases failed

/-- On any connection and with any time spent between the calls, the calls give the frames of the stream in order; the
    next call returns, with the next frame or because of a silence longer than the deadline since it began or last read,
    or because the pipe failed; and once nothing arrives any more it returns within the deadline and two polls. -/
theorem next_measures_silence (decode : Bytes → Except String Response) (pipe : Pipe) {results : List (Except ReplyError Response)}
    {r : Replies} (reached : Reached decode pipe results r) :
    ∃ taken, Gives decode taken results ∧
      (∀ frames rest, Leading serverCap (pipe.arrived r.clock) frames rest → taken <+: frames) ∧
      ∀ time, ∃ enough result after,
        (∀ fuel, enough ≤ fuel → (r.spend time).next decode pipe fuel = some (result, after)) ∧
        Ends decode pipe taken (r.spend time) after result ∧
        ∀ since, Quiet pipe (r.clock + time) since →
          after.clock ≤ max (r.clock + time) since + readDeadline + 2 * pollInterval ∧
          (pipe.Open → ∀ rest, Leading serverCap (pipe.arrived since) taken rest → (∀ len, ¬ Oversize serverCap rest len) →
            result = .error .silent) := by
  obtain ⟨taken, gives, follows⟩ := reached.follows
  refine ⟨taken, gives, fun frames rest all => follows.leading all, ?_⟩
  intro time
  obtain ⟨⟨result, after⟩, enough⟩ := next_returns (follows.spend time)
  have ended := next_ended (follows.spend time) (enough _ (Nat.lt_succ_self _))
  refine ⟨_, result, after, fun fuel many => enough fuel many, ended.ends, ?_⟩
  intro since quiet
  have soon := ended.soon since quiet
  refine ⟨soon, ?_⟩
  intro up rest last within
  have grown : pipe.arrived after.clock <+: pipe.arrived since := by
    obtain early | late := Nat.le_total after.clock since
    · exact pipe.grows early
    · rw [quiet after.clock late soon]
  exact ended.ends.eq_silent up grown last within

def mute : Pipe where
  arrived _ := []
  grows _ := prefix_refl []
  gone _ := false
  reads _ _ := .ok 1

theorem mute_is_silent :
    ∃ fuel after, ((Replies.new 7).spend 3).next (fun _ => (.ok () : Except String Unit)) mute fuel = some (.error .silent, after) ∧
      after.clock ≤ 10 + readDeadline + 2 * pollInterval := by
  have none_long : ∀ payload ∈ ([] : List Bytes), payload.length ≤ serverCap.toNat := by simp
  have nothing : Leading serverCap [] [] [] := leading_encoded none_long
  obtain ⟨taken, -, first, calls⟩ := next_measures_silence (fun _ => .ok ()) mute (.start 7)
  obtain rfl := prefix_nil.mp (first [] [] nothing)
  obtain ⟨enough, result, after, returns, -, timely⟩ := calls 3
  obtain ⟨soon, silent⟩ := timely 10 fun _ _ _ => rfl
  have within : ∀ len, ¬ Oversize serverCap [] len := fun len oversize => absurd (u32At_oversize oversize).1 (by decide)
  obtain rfl := silent ⟨fun _ => rfl, fun _ _ => ⟨0, rfl⟩⟩ [] nothing within
  exact ⟨enough, after, returns enough (Nat.le_refl _), soon⟩

end Deadline

end Goz.Cli
