import Goz.Library.Machine

namespace Goz.Daemon

variable {t : Nat}

inductive VolumePhase
  | bootstrapping
  | live
  | rescanning
  | snapshot
  | offline
  | failed (reason : String)
  deriving DecidableEq, Repr

inductive RescanReason
  | noCursor
  | parserAnomaly
  | entryDeletedError
  | journalNotActive
  | journalDeleteInProgress
  | readsKeptFailing
  deriving DecidableEq, Repr

def RescanReason.debug : RescanReason → String
  | noCursor => "NoCursor"
  | parserAnomaly => "ParserAnomaly"
  | entryDeletedError => "EntryDeletedError"
  | journalNotActive => "JournalNotActive"
  | journalDeleteInProgress => "JournalDeleteInProgress"
  | readsKeptFailing => "ReadsKeptFailing"

structure JournalInfo where
  journalId : Nat
  nextUsn : Int
  deriving DecidableEq, Repr

inductive JournalSetup
  | active (cursor : JournalInfo)
  | refused
  | unavailable
  deriving DecidableEq, Repr

namespace JournalSetup

def cursor : JournalSetup → Option JournalInfo
  | active c => some c
  | refused | unavailable => none

def builtPhase : JournalSetup → VolumePhase
  | active _ => .live
  | refused => .snapshot
  | unavailable => .offline

end JournalSetup

inductive Pulse
  | beat (at_ : Nat)
  | busy (since : Nat)
  | retired
  deriving DecidableEq, Repr

-- Clock readings and waits are in nanoseconds.
def degradeAfter : Nat := 5 * 10 ^ 9
def escalateAfter : Nat := 30 * 10 ^ 9
def retryBackoffMin : Nat := 500 * 10 ^ 6
def retryBackoffMax : Nat := 30 * 10 ^ 9
def journalWaitMax : Nat := 5 * 60 * 10 ^ 9
def maxRescans : Nat := 3

def errorJournalDeleteInProgress : Nat := 1178
def errorJournalNotActive : Nat := 1179
def errorJournalEntryDeleted : Nat := 1181

/-- What a tail shares with the rest of the daemon, without the index itself. `builds` counts the full builds
started. -/
structure VolumeState where
  phase : VolumePhase
  indexed : Bool
  builds : Nat

inductive Resume
  | first
  | anomaly
  | failedRead
  deriving DecidableEq

/-- The points of the tail at which it waits for the system to answer. -/
inductive Control
  | start
  | firstBuilding (journal : JournalSetup)
  | asking (reason : RescanReason) (resume : Resume) (waited : Bool) (wait : Nat)
  | building (reason : RescanReason) (resume : Resume) (journal : JournalSetup)
  | reading
  | returned

structure Tail where
  control : Control
  rescans : Nat
  startUsn : Int
  journalId : Nat
  failingSince : Option Nat
  backoff : Nat
  degraded : Bool
  pulse : Pulse

structure Walk where
  records : Nat
  nextUsn : Int

inductive ReadAnswer
  | ok (walk : Except String Walk)
  | error (code : Nat) (text : String)

structure World where
  stop : Bool
  journal : JournalSetup
  build : Except String Unit
  read : ReadAnswer
  failedAt : Nat
  escalateAt : Nat
  degradeAt : Nat
  awake : Nat

structure Tailed where
  volume : VolumeState
  tail : Tail

namespace Tailed

def spawn (volume : VolumeState) (awake : Nat) : Tailed where
  volume := volume
  tail :=
    { control := .start, rescans := 0, startUsn := 0, journalId := 0, failingSince := none,
      backoff := retryBackoffMin, degraded := false, pulse := .beat awake }

@[simps tail volume]
def setPhase (s : Tailed) (phase : VolumePhase) : Tailed := { s with volume := { s.volume with phase := phase } }

@[simps tail volume]
def goto (s : Tailed) (control : Control) : Tailed := { s with tail := { s.tail with control := control } }

@[simps tail volume]
def stamp (s : Tailed) (pulse : Pulse) : Tailed := { s with tail := { s.tail with pulse := pulse } }

def retire (s : Tailed) : Tailed := (s.goto .returned).stamp .retired

def markFailed (s : Tailed) (reason : RescanReason) (detail : String) : Tailed :=
  s.setPhase (.failed (reason.debug ++ ": " ++ detail))

@[simps tail volume]
def beginBuild (s : Tailed) (phase : VolumePhase) (awake : Nat) : Tailed :=
  { s with
    volume := { s.volume with phase := phase, builds := s.volume.builds + 1 }
    tail := { s.tail with pulse := .busy awake } }

@[simps tail volume]
def install (s : Tailed) (journal : JournalSetup) : Tailed :=
  { s with volume := { s.volume with indexed := true, phase := journal.builtPhase } }

/-- The read loop goes on from a fresh cursor. Only the arm of a corrupt buffer leaves the failure streak alone. -/
def resumeAt (s : Tailed) (resume : Resume) (cursor : JournalInfo) : Tailed :=
  let tail := { s.tail with control := .reading, startUsn := cursor.nextUsn, journalId := cursor.journalId }
  match resume with
  | .anomaly => { s with tail := tail }
  | .first | .failedRead =>
    { s with tail := { tail with failingSince := none, backoff := retryBackoffMin, degraded := false } }

def rescanned (s : Tailed) (resume : Resume) : Option JournalInfo → Tailed
  | none => s.retire
  | some cursor => s.resumeAt resume cursor

def rescan (s : Tailed) (reason : RescanReason) (resume : Resume) : Tailed :=
  s.goto (.asking reason resume false retryBackoffMin)

def boundedRescan (s : Tailed) (reason : RescanReason) (detail : String) (resume : Resume) : Tailed :=
  let charged := { s with tail := { s.tail with rescans := s.tail.rescans + 1 } }
  if charged.tail.rescans > maxRescans then
    (charged.markFailed reason (detail ++ ": too many rescans, giving up")).retire
  else charged.rescan reason resume

end Tailed

inductive Built
  | aborted
  | failed (error : String)
  | done

def World.buildIndex (w : World) : Built :=
  if w.stop then .aborted
  else
    match w.build with
    | .error e => .failed e
    | .ok () => .done

namespace Tailed

def begin (s : Tailed) (w : World) : Tailed :=
  if s.volume.indexed then s.rescan .noCursor .first
  else (s.goto (.firstBuilding w.journal)).beginBuild .bootstrapping w.awake

def firstBuild (s : Tailed) (w : World) (journal : JournalSetup) : Tailed :=
  match w.buildIndex with
  | .aborted => s.retire
  | .failed e => (s.markFailed .noCursor ("first build failed: " ++ e)).retire
  | .done =>
    let built := (s.stamp (.beat w.awake)).install journal
    match journal with
    | .active cursor => built.resumeAt .first cursor
    | .refused => built.retire
    | .unavailable => built.rescan .noCursor .first

def ask (s : Tailed) (w : World) (reason : RescanReason) (resume : Resume) (waited : Bool) (wait : Nat) : Tailed :=
  if w.journal = .unavailable then
    let waiting := if waited then s else s.setPhase .offline
    if w.stop then waiting.retire
    else (waiting.stamp (.beat w.awake)).goto (.asking reason resume true (min (wait * 2) journalWaitMax))
  else (s.goto (.building reason resume w.journal)).beginBuild .rescanning w.awake

def rebuild (s : Tailed) (w : World) (reason : RescanReason) (resume : Resume) (journal : JournalSetup) : Tailed :=
  match w.buildIndex with
  | .aborted => s.retire
  | .failed e => (s.markFailed reason ("rescan rebuild failed: " ++ e)).retire
  | .done => ((s.stamp (.beat w.awake)).install journal).rescanned resume journal.cursor

def recovered (s : Tailed) : Tailed :=
  let live := if s.tail.degraded then s.setPhase .live else s
  { live with tail := { s.tail with degraded := false, failingSince := none, backoff := retryBackoffMin } }

def readOk (s : Tailed) (walk : Except String Walk) : Tailed :=
  match walk with
  | .error e => s.recovered.boundedRescan .parserAnomaly e .anomaly
  | .ok walk =>
    let tail := { s.recovered.tail with startUsn := walk.nextUsn }
    if walk.records = 0 then { s.recovered with tail := tail }
    else { s.recovered with tail := { tail with rescans := 0 } }

/-- A read failure no other arm knows: retried, then reported, then answered with a rebuild. -/
def retryRead (s : Tailed) (w : World) (text : String) : Tailed :=
  let since := s.tail.failingSince.getD w.failedAt
  let failing := { s with tail := { s.tail with failingSince := some since } }
  if w.escalateAt - since ≥ escalateAfter then failing.boundedRescan .readsKeptFailing text .failedRead
  else
    let told :=
      if !failing.tail.degraded && w.degradeAt - since ≥ degradeAfter then
        { failing.setPhase .offline with tail := { failing.tail with degraded := true } }
      else failing
    { told with tail := { told.tail with backoff := min (told.tail.backoff * 2) retryBackoffMax } }

def readError (s : Tailed) (w : World) (code : Nat) (text : String) : Tailed :=
  if code = errorJournalEntryDeleted then s.boundedRescan .entryDeletedError text .failedRead
  else if code = errorJournalNotActive then s.boundedRescan .journalNotActive text .failedRead
  else if code = errorJournalDeleteInProgress then s.boundedRescan .journalDeleteInProgress text .failedRead
  else s.retryRead w text

def readTurn (s : Tailed) (w : World) : Tailed :=
  if w.stop then s.retire
  else
    match w.read with
    | .ok walk => (s.stamp (.beat w.awake)).readOk walk
    | .error code text => (s.stamp (.beat w.awake)).readError w code text

def step (s : Tailed) (w : World) : Tailed :=
  match s.tail.control with
  | .start => s.begin w
  | .firstBuilding journal => s.firstBuild w journal
  | .asking reason resume waited wait => s.ask w reason resume waited wait
  | .building reason resume journal => s.rebuild w reason resume journal
  | .reading => s.readTurn w
  | .returned => s

section Fields

variable (s : Tailed) (phase : VolumePhase) (control : Control) (pulse : Pulse) (reason : RescanReason)
  (detail : String) (resume : Resume) (cursor : JournalInfo) (journal : JournalSetup) (awake : Nat)

@[simp] theorem retire_tail : s.retire.tail = { s.tail with control := .returned, pulse := .retired } := rfl

@[simp] theorem retire_volume : s.retire.volume = s.volume := rfl

@[simp] theorem markFailed_tail : (s.markFailed reason detail).tail = s.tail := rfl

@[simp] theorem markFailed_volume : (s.markFailed reason detail).volume =
    { s.volume with phase := .failed (reason.debug ++ ": " ++ detail) } := rfl

@[simp] theorem resumeAt_volume : (s.resumeAt resume cursor).volume = s.volume := by cases resume <;> rfl

@[simp] theorem resumeAt_control : (s.resumeAt resume cursor).tail.control = .reading := by cases resume <;> rfl

@[simp] theorem resumeAt_rescans : (s.resumeAt resume cursor).tail.rescans = s.tail.rescans := by
  cases resume <;> rfl

theorem resumeAt_degraded (calm : resume = .anomaly → s.tail.degraded = false) :
    (s.resumeAt resume cursor).tail.degraded = false := by
  cases resume with
  | first => rfl
  | anomaly => exact calm rfl
  | failedRead => rfl

@[simp] theorem rescan_tail : (s.rescan reason resume).tail =
    { s.tail with control := .asking reason resume false retryBackoffMin } := rfl

@[simp] theorem rescan_volume : (s.rescan reason resume).volume = s.volume := rfl

@[simp] theorem recovered_tail : s.recovered.tail =
    { s.tail with degraded := false, failingSince := none, backoff := retryBackoffMin } := rfl

@[simp] theorem recovered_volume : s.recovered.volume =
    if s.tail.degraded then { s.volume with phase := .live } else s.volume := by
  unfold recovered
  split <;> rfl

theorem boundedRescan_cases :
    (maxRescans ≤ s.tail.rescans ∧ (s.boundedRescan reason detail resume).tail.control = .returned ∧
      (s.boundedRescan reason detail resume).tail.pulse = .retired ∧
      ∃ text, (s.boundedRescan reason detail resume).volume = { s.volume with phase := .failed text }) ∨
    (s.tail.rescans < maxRescans ∧ (s.boundedRescan reason detail resume).volume = s.volume ∧
      (s.boundedRescan reason detail resume).tail =
        { s.tail with
          rescans := s.tail.rescans + 1, control := .asking reason resume false retryBackoffMin }) := by
  rcases Nat.lt_or_ge s.tail.rescans maxRescans with room | spent
  · right
    have result : s.boundedRescan reason detail resume =
        Tailed.rescan { s with tail := { s.tail with rescans := s.tail.rescans + 1 } } reason resume :=
      if_neg (Nat.not_lt.mpr room)
    rw [result]
    exact ⟨room, rfl, rfl⟩
  · left
    have result : s.boundedRescan reason detail resume =
        (Tailed.markFailed { s with tail := { s.tail with rescans := s.tail.rescans + 1 } } reason
          (detail ++ ": too many rescans, giving up")).retire :=
      if_pos (Nat.lt_succ_of_le spent)
    rw [result]
    exact ⟨spent, rfl, rfl, _, rfl⟩

end Fields

def Sound (s : Tailed) : Prop :=
  match s.tail.control with
  | .start | .firstBuilding _ => s.tail.degraded = false
  | .asking _ resume waited _ =>
    (waited → s.volume.phase = .offline) ∧ (resume = .anomaly → s.tail.degraded = false)
  | .building _ resume journal =>
    s.volume.phase = .rescanning ∧ journal ≠ .unavailable ∧ (resume = .anomaly → s.tail.degraded = false)
  | .reading => s.tail.degraded → s.volume.phase = .offline
  | .returned => True

section Steps

variable {s : Tailed} {w : World} {reason : RescanReason} {resume : Resume} {journal : JournalSetup} {detail : String}

theorem sound_of_returned (over_ : s.tail.control = .returned) : s.Sound := by simp [Sound, over_]

theorem sound_of_reading (reading : s.tail.control = .reading) (calm : s.tail.degraded → s.volume.phase = .offline) :
    s.Sound := by simpa [Sound, reading] using calm

theorem boundedRescan_control : (s.boundedRescan reason detail resume).tail.control ≠ .reading := by
  rcases s.boundedRescan_cases reason detail resume with ⟨-, over_, -⟩ | ⟨-, -, asks⟩
  · simp [over_]
  · simp [asks]

theorem sound_boundedRescan (calm : resume = .anomaly → s.tail.degraded = false) :
    (s.boundedRescan reason detail resume).Sound := by
  rcases s.boundedRescan_cases reason detail resume with ⟨-, over_, -⟩ | ⟨-, -, asks⟩
  · exact sound_of_returned over_
  · simpa [Sound, asks] using calm

theorem sound_begin (calm : s.tail.degraded = false) : (s.begin w).Sound := by
  unfold begin
  split <;> simp [Sound, calm]

theorem sound_firstBuild (calm : s.tail.degraded = false) : (s.firstBuild w journal).Sound := by
  unfold firstBuild
  cases w.buildIndex with
  | aborted => exact sound_of_returned rfl
  | failed e => exact sound_of_returned rfl
  | done =>
    cases journal with
    | active cursor =>
      apply sound_of_reading (resumeAt_control _ _ _)
      simp [resumeAt]
    | refused => exact sound_of_returned rfl
    | unavailable => simp [Sound, calm]

theorem sound_ask {waited : Bool} {wait : Nat} (told : waited → s.volume.phase = .offline)
    (calm : resume = .anomaly → s.tail.degraded = false) : (s.ask w reason resume waited wait).Sound := by
  unfold ask
  by_cases shut : w.journal = .unavailable
  · cases stop : w.stop with
    | true => exact sound_of_returned (by simp [shut])
    | false => cases waited <;> simp_all [Sound]
  · simpa [Sound, shut] using calm

theorem sound_rebuild (calm : resume = .anomaly → s.tail.degraded = false) :
    (s.rebuild w reason resume journal).Sound := by
  unfold rebuild
  cases w.buildIndex with
  | aborted => exact sound_of_returned rfl
  | failed e => exact sound_of_returned rfl
  | done =>
    cases cursor : journal.cursor with
    | none => exact sound_of_returned rfl
    | some c =>
      apply sound_of_reading (resumeAt_control _ _ _)
      rw [resumeAt_degraded _ _ _ (by simpa using calm)]
      simp

theorem sound_readOk (walk : Except String Walk) (reading : s.tail.control = .reading) : (s.readOk walk).Sound := by
  cases walk with
  | error e => exact sound_boundedRescan (by simp)
  | ok walk =>
    simp only [readOk]
    split <;> exact sound_of_reading reading (by simp)

theorem retryRead_cases (s : Tailed) (w : World) (text : String) :
    s.retryRead w text =
        Tailed.boundedRescan { s with tail := { s.tail with failingSince := some (s.tail.failingSince.getD w.failedAt) } }
          .readsKeptFailing text .failedRead ∨
      (s.retryRead w text).tail.control = s.tail.control ∧ (s.retryRead w text).tail.pulse = s.tail.pulse ∧
        (s.retryRead w text).tail.rescans = s.tail.rescans ∧
        (s.retryRead w text).tail.failingSince = some (s.tail.failingSince.getD w.failedAt) ∧
        ((s.retryRead w text).tail.degraded = s.tail.degraded ∧ (s.retryRead w text).volume = s.volume ∧
            (s.tail.degraded ∨ w.degradeAt - s.tail.failingSince.getD w.failedAt < degradeAfter) ∨
          (s.retryRead w text).volume = { s.volume with phase := .offline }) := by
  unfold retryRead
  by_cases late : w.escalateAt - s.tail.failingSince.getD w.failedAt ≥ escalateAfter
  · left
    simp only [late, if_true]
  · right
    simp only [late, if_false]
    by_cases news : s.tail.degraded = false ∧ w.degradeAt - s.tail.failingSince.getD w.failedAt ≥ degradeAfter
    · simp [news.1, news.2]
    · have quiet : ¬ ((!s.tail.degraded && decide (w.degradeAt - s.tail.failingSince.getD w.failedAt ≥ degradeAfter)) =
          true) := by simpa using news
      simp only [quiet]
      refine ⟨rfl, rfl, rfl, rfl, .inl ⟨rfl, rfl, ?_⟩⟩
      by_cases told : s.tail.degraded = true
      · exact .inl told
      · exact .inr (Nat.lt_of_not_le fun long => news ⟨Bool.eq_false_iff.mpr told, long⟩)

/-- A failed read is answered by a charged rescan, or kept in the streak and retried. -/
theorem readError_cases (s : Tailed) (w : World) (code : Nat) (text : String) :
    (∃ since reason, s.readError w code text =
      Tailed.boundedRescan { s with tail := { s.tail with failingSince := since } } reason text .failedRead ∧
        (since = s.tail.failingSince ∨ since = some (s.tail.failingSince.getD w.failedAt))) ∨
    (s.readError w code text).tail.control = s.tail.control ∧
      (s.readError w code text).tail.pulse = s.tail.pulse ∧
      (s.readError w code text).tail.rescans = s.tail.rescans ∧
      (s.readError w code text).tail.failingSince = some (s.tail.failingSince.getD w.failedAt) ∧
      ((s.readError w code text).tail.degraded = s.tail.degraded ∧ (s.readError w code text).volume = s.volume ∧
          (s.tail.degraded ∨ w.degradeAt - s.tail.failingSince.getD w.failedAt < degradeAfter) ∨
        (s.readError w code text).volume = { s.volume with phase := .offline }) := by
  unfold readError
  split
  · exact .inl ⟨s.tail.failingSince, _, rfl, .inl rfl⟩
  · split
    · exact .inl ⟨s.tail.failingSince, _, rfl, .inl rfl⟩
    · split
      · exact .inl ⟨s.tail.failingSince, _, rfl, .inl rfl⟩
      · rcases s.retryRead_cases w text with rebuilds | kept
        · exact .inl ⟨_, _, rebuilds, .inr rfl⟩
        · exact .inr kept

theorem sound_readError {code : Nat} {text : String} (reading : s.tail.control = .reading)
    (told : s.tail.degraded → s.volume.phase = .offline) : (s.readError w code text).Sound := by
  rcases s.readError_cases w code text with ⟨since, reason, rebuilds, -⟩ | ⟨control, -, -, -, kept⟩
  · rw [rebuilds]
    exact sound_boundedRescan (by simp)
  · apply sound_of_reading (control.trans reading)
    rcases kept with ⟨degraded, volume, -⟩ | volume
    · rw [degraded, volume]
      exact told
    · rw [volume]
      exact fun _ => rfl

theorem Sound.step (sound : s.Sound) (w : World) : (s.step w).Sound := by
  unfold Tailed.step
  cases control : s.tail.control with
  | start =>
    simp only [Sound, control] at sound
    exact sound_begin sound
  | firstBuilding journal =>
    simp only [Sound, control] at sound
    exact sound_firstBuild sound
  | asking reason resume waited wait =>
    simp only [Sound, control] at sound
    exact sound_ask sound.1 sound.2
  | building reason resume journal =>
    simp only [Sound, control] at sound
    exact sound_rebuild sound.2.2
  | reading =>
    simp only [Sound, control] at sound
    simp only [readTurn]
    split
    · exact sound_of_returned rfl
    · split
      · exact sound_readOk _ control
      · exact sound_readError control sound
  | returned => exact sound_of_returned control

def Accounted (s : Tailed) : Prop :=
  s.tail.control = .returned → s.volume.phase = .snapshot ∨ ∃ reason, s.volume.phase = .failed reason

theorem accounted_of_ne (on : s.tail.control ≠ .returned) : s.Accounted := fun over_ => absurd over_ on

theorem accounted_boundedRescan : (s.boundedRescan reason detail resume).Accounted := by
  rcases s.boundedRescan_cases reason detail resume with ⟨-, -, -, text, failed⟩ | ⟨-, -, asks⟩
  · exact fun _ => .inr ⟨text, by rw [failed]⟩
  · exact accounted_of_ne (by simp [asks])

theorem Accounted.step (accounted : s.Accounted) (sound : s.Sound) (on : w.stop = false) : (s.step w).Accounted := by
  unfold Tailed.step
  cases control : s.tail.control with
  | start =>
    apply accounted_of_ne
    simp only [begin]
    split <;> simp
  | firstBuilding journal =>
    simp only [firstBuild, World.buildIndex, on, Bool.false_eq_true, if_false]
    cases w.build with
    | error e => exact fun _ => .inr ⟨_, rfl⟩
    | ok _ =>
      cases journal with
      | active cursor => exact accounted_of_ne (by simp)
      | refused => exact fun _ => .inl rfl
      | unavailable => exact accounted_of_ne (by simp)
  | asking reason resume waited wait =>
    apply accounted_of_ne
    simp only [ask, on, Bool.false_eq_true, if_false]
    split <;> simp
  | building reason resume journal =>
    simp only [Sound, control] at sound
    simp only [rebuild, World.buildIndex, on, Bool.false_eq_true, if_false]
    cases w.build with
    | error e => exact fun _ => .inr ⟨_, rfl⟩
    | ok _ =>
      cases journal with
      | active cursor => exact accounted_of_ne (by simp [JournalSetup.cursor, rescanned])
      | refused => exact fun _ => .inl rfl
      | unavailable => exact absurd rfl sound.2.1
  | reading =>
    simp only [readTurn, on, Bool.false_eq_true, if_false]
    cases w.read with
    | ok walk =>
      cases walk with
      | error e => exact accounted_boundedRescan
      | ok walk =>
        apply accounted_of_ne
        simp only [readOk]
        split <;> simp [control]
    | error code text =>
      rcases (s.stamp (.beat w.awake)).readError_cases w code text with ⟨since, reason, rebuilds, -⟩ | ⟨stays, -⟩
      · simp only [rebuilds]
        exact accounted_boundedRescan
      · exact accounted_of_ne (by simp [stays, control])
  | returned => exact accounted

def Told (s : Tailed) : Prop :=
  match s.tail.control with
  | .start | .firstBuilding _ => False
  | .asking _ _ _ _ | .building _ _ _ => True
  | .reading | .returned => s.volume.phase ≠ .live

def Completes (s : Tailed) (w : World) : Prop :=
  w.buildIndex = .done ∧
    ((∃ journal, s.tail.control = .firstBuilding journal) ∨
      ∃ reason resume journal, s.tail.control = .building reason resume journal)

theorem told_boundedRescan : (s.boundedRescan reason detail resume).Told := by
  rcases s.boundedRescan_cases reason detail resume with ⟨-, over_, -, text, failed⟩ | ⟨-, -, asks⟩
  · simp [Told, over_, failed]
  · simp [Told, asks]

theorem Told.step (told : s.Told) (sound : s.Sound) (away : s.tail.control ≠ .reading) :
    (s.step w).Told ∨ s.Completes w := by
  unfold Tailed.step
  cases control : s.tail.control with
  | start => simp [Told, control] at told
  | firstBuilding journal => simp [Told, control] at told
  | asking reason resume waited wait =>
    left
    simp only [Sound, control] at sound
    simp only [ask]
    split
    · cases w.stop with
      | false => simp [Told]
      | true => cases waited <;> simp_all [Told]
    · simp [Told]
  | building reason resume journal =>
    simp only [Sound, control] at sound
    cases ends : w.buildIndex with
    | aborted =>
      left
      simp [rebuild, ends, Told, sound.1]
    | failed e =>
      left
      simp [rebuild, ends, Told]
    | done => exact .inr ⟨ends, .inr ⟨_, _, _, control⟩⟩
  | reading => exact absurd control away
  | returned => exact .inl told

def FailedRead (s : Tailed) (w : World) : Prop :=
  s.tail.control = .reading ∧ w.stop = false ∧ ∃ code text, w.read = .error code text

theorem FailedRead.told (failed : s.FailedRead w) (sound : s.Sound)
    (old : degradeAfter ≤ w.degradeAt - s.tail.failingSince.getD w.failedAt) : (s.step w).Told := by
  obtain ⟨control, on, code, text, read⟩ := failed
  simp only [Sound, control] at sound
  simp only [Tailed.step, control, readTurn, on, read, Bool.false_eq_true, if_false]
  rcases (s.stamp (.beat w.awake)).readError_cases w code text with ⟨since, reason, rebuilds, -⟩ | ⟨stays, -, -, -, kept⟩
  · rw [rebuilds]
    exact told_boundedRescan
  · have reading : ((s.stamp (.beat w.awake)).readError w code text).tail.control = .reading := stays.trans control
    simp only [Told, reading]
    rcases kept with ⟨-, volume, degraded | young⟩ | volume
    · rw [volume]
      simp [sound degraded]
    · exact absurd old (Nat.not_le.mpr young)
    · simp [volume]

theorem FailedRead.since (failed : s.FailedRead w) (again : (s.step w).tail.control = .reading) :
    (s.step w).tail.failingSince = some (s.tail.failingSince.getD w.failedAt) := by
  obtain ⟨control, on, code, text, read⟩ := failed
  simp only [Tailed.step, control, readTurn, on, read, Bool.false_eq_true, if_false] at again ⊢
  rcases (s.stamp (.beat w.awake)).readError_cases w code text with ⟨since, reason, rebuilds, -⟩ | ⟨-, -, -, since, -⟩
  · rw [rebuilds] at again
    exact absurd again boundedRescan_control
  · exact since

@[simp] theorem boundedRescan_failingSince :
    (s.boundedRescan reason detail resume).tail.failingSince = s.tail.failingSince := by
  unfold boundedRescan
  dsimp only
  split <;> rfl

theorem streak_start {streak : Option Nat} {now : Nat} (start : some (streak.getD now) = some t) :
    t = now ∨ streak = some t := by
  cases streak with
  | none => exact .inl (Option.some.inj start).symm
  | some since => exact .inr start

theorem readOk_failingSince (walk : Except String Walk) : (s.readOk walk).tail.failingSince = none := by
  cases walk with
  | error e => simp [readOk]
  | ok walk =>
    simp only [readOk]
    split <;> rfl

theorem step_failingSince (failing : (s.step w).tail.failingSince = some t) :
    t = w.failedAt ∨ s.tail.failingSince = some t := by
  unfold Tailed.step at failing
  cases control : s.tail.control with
  | start =>
    simp only [control, begin] at failing
    split at failing <;> exact .inr failing
  | firstBuilding journal =>
    simp only [control, firstBuild] at failing
    cases ends : w.buildIndex <;> cases journal <;> simp_all [resumeAt]
  | asking reason resume waited wait =>
    simp only [control, ask] at failing
    split at failing
    · cases waited <;> cases stop : w.stop <;> simp_all
    · exact .inr failing
  | building reason resume journal =>
    simp only [control, rebuild] at failing
    cases ends : w.buildIndex <;> cases journal <;> cases resume <;>
      simp_all [resumeAt, rescanned, JournalSetup.cursor]
  | reading =>
    simp only [control, readTurn] at failing
    split at failing
    · exact .inr failing
    · split at failing
      · simp [readOk_failingSince] at failing
      · rename_i code text _
        rcases (s.stamp (.beat w.awake)).readError_cases w code text with
          ⟨since, reason, rebuilds, which⟩ | ⟨-, -, -, since, -⟩
        · rw [rebuilds, boundedRescan_failingSince] at failing
          rcases which with rfl | rfl
          · exact .inr failing
          · exact streak_start failing
        · rw [since] at failing
          exact streak_start failing
  | returned =>
    simp only [control] at failing
    exact .inr failing

end Steps

end Tailed

open Tailed

variable {n i j : Nat}

/-- The clock of a run does not go back, within a step or from one to the next. -/
structure Ticking (env : Nat → World) : Prop where
  across : Monotone fun n => (env n).failedAt
  escalate : ∀ n, (env n).failedAt ≤ (env n).escalateAt
  degrade : ∀ n, (env n).escalateAt ≤ (env n).degradeAt

variable {start : VolumeState} {awake : Nat} {env : Nat → World}

def Tailed.after (start : VolumeState) (awake : Nat) (env : Nat → World) (n : Nat) : Tailed :=
  Machine.run Tailed.step (Tailed.spawn start awake) env n

theorem Tailed.after_sound (n : Nat) : (after start awake env n).Sound := by
  apply Machine.invariant
  · rfl
  · intro n sound
    exact sound.step (env n)

theorem Tailed.after_accounted (on : ∀ m < n, (env m).stop = false) : (after start awake env n).Accounted := by
  induction n with
  | zero => exact accounted_of_ne (by simp [after, Machine.run, spawn])
  | succ n ih =>
    have before : (after start awake env n).Accounted := ih fun m lt => on m (by omega)
    exact before.step (after_sound n) (on n (by omega))

theorem Tailed.after_failingSince (n : Nat)
    (failing : (after start awake env n).tail.failingSince = some t) : ∃ k < n, t = (env k).failedAt := by
  induction n with
  | zero => simp [after, Machine.run, spawn] at failing
  | succ n ih =>
    rcases step_failingSince failing with now | earlier
    · exact ⟨n, by omega, now⟩
    · obtain ⟨k, lt, same⟩ := ih earlier
      exact ⟨k, by omega, same⟩

theorem Tailed.after_streak (ticking : Ticking env) (le : i ≤ j)
    (streak : ∀ k, i ≤ k → k ≤ j → (after start awake env k).FailedRead (env k)) :
    (after start awake env j).tail.failingSince.getD (env j).failedAt ≤ (env i).failedAt := by
  induction j, le using Nat.le_induction with
  | base =>
    cases failing : (after start awake env i).tail.failingSince with
    | none => exact le_rfl
    | some t =>
      obtain ⟨k, lt, rfl⟩ := after_failingSince i failing
      exact ticking.across lt.le
  | succ j le ih =>
    have before := ih fun k from_ to_ => streak k from_ (by omega)
    have failed := streak j le (by omega)
    have again : (after start awake env (j + 1)).tail.control = .reading := (streak (j + 1) (by omega) le_rfl).1
    have since : (after start awake env (j + 1)).tail.failingSince = _ := failed.since again
    rw [since]
    exact before

theorem Tailed.after_told (ticking : Ticking env) (le : i ≤ j)
    (streak : ∀ k, i ≤ k → k ≤ j → (after start awake env k).FailedRead (env k))
    (old : degradeAfter ≤ (env j).failedAt - (env i).failedAt) (later : j < n)
    (handling : ∀ k, j < k → k < n → (after start awake env k).tail.control ≠ .reading) :
    (after start awake env n).Told ∨
      ∃ k, j < k ∧ k < n ∧ (after start awake env k).Completes (env k) := by
  induction n, Nat.succ_le_of_lt later using Nat.le_induction with
  | base =>
    left
    have known := after_streak ticking le streak
    have clock := ticking.escalate j
    have clock' := ticking.degrade j
    exact (streak j le le_rfl).told (after_sound j) (by omega)
  | succ n le' ih =>
    rcases ih (by omega) fun k from_ to_ => handling k from_ (by omega) with told | ⟨k, from_, to_, done⟩
    · rcases told.step (after_sound n) (handling n (by omega) (by omega)) with told | done
      · exact .inl told
      · exact .inr ⟨n, by omega, by omega, done⟩
    · exact .inr ⟨k, from_, by omega, done⟩

/-- The tail has no silent state. If it returns by itself the volume is failed or a snapshot. And once it has handled
a failed read of a streak at least `degradeAfter` old, the volume is not `Live`, unless it was rebuilt meanwhile. -/
theorem tail_loop_accounts_for_volume (start : VolumeState) (awake : Nat) (env : Nat → World) :
    (∀ n, (∀ m < n, (env m).stop = false) → (Tailed.after start awake env n).tail.control = .returned →
      (Tailed.after start awake env n).volume.phase = .snapshot ∨
        ∃ reason, (Tailed.after start awake env n).volume.phase = .failed reason) ∧
    (Ticking env → ∀ i j n, i ≤ j →
      (∀ k, i ≤ k → k ≤ j → (Tailed.after start awake env k).FailedRead (env k)) →
      degradeAfter ≤ (env j).failedAt - (env i).failedAt → j < n →
      (∀ k, j < k → k < n → (Tailed.after start awake env k).tail.control ≠ .reading) →
      ((Tailed.after start awake env n).tail.control = .reading ∨
        (Tailed.after start awake env n).tail.control = .returned) →
      (Tailed.after start awake env n).volume.phase ≠ .live ∨
        ∃ k, j < k ∧ k < n ∧ (Tailed.after start awake env k).Completes (env k)) := by
  constructor
  · intro n on over_
    exact after_accounted on over_
  · intro ticking i j n le streak old later handling handled
    refine (after_told ticking le streak old later handling).imp_left fun told => ?_
    rcases handled with reading | over_
    · simpa only [Tailed.Told, reading] using told
    · simpa only [Tailed.Told, over_] using told

def VolumeState.found : VolumeState where
  phase := .bootstrapping
  indexed := false
  builds := 0

/-- A disk that is built once and then answers no read, one of its failures six seconds after another. -/
def sickDisk (n : Nat) : World where
  stop := false
  journal := .active { journalId := 1, nextUsn := 0 }
  build := .ok ()
  read := .error 21 "not ready"
  failedAt := 6 * n * 10 ^ 9
  escalateAt := 6 * n * 10 ^ 9
  degradeAt := 6 * n * 10 ^ 9
  awake := 6 * n

theorem sickDisk_ticking : Ticking sickDisk where
  across := by
    intro n m le
    simp only [sickDisk]
    omega
  escalate := fun _ => le_rfl
  degrade := fun _ => le_rfl

theorem sickDisk_not_live :
    (Tailed.after .found 0 sickDisk 3).volume.phase = .live ∧
      ((Tailed.after .found 0 sickDisk 4).volume.phase ≠ .live ∨
        ∃ k, 3 < k ∧ k < 4 ∧ (Tailed.after .found 0 sickDisk k).Completes (sickDisk k)) := by
  refine ⟨by decide, ?_⟩
  apply (tail_loop_accounts_for_volume .found 0 sickDisk).2 sickDisk_ticking 2 3 4
  · decide
  · intro k first last
    rcases (by omega : k = 2 ∨ k = 3) with rfl | rfl
    · exact ⟨rfl, rfl, 21, "not ready", rfl⟩
    · exact ⟨rfl, rfl, 21, "not ready", rfl⟩
  · decide
  · decide
  · omega
  · exact .inl rfl

/-- A volume shows what its tail is doing: one that rebuilds, awaits its journal or reads in vain is not `Live`. -/
theorem phase_tells_tail (start : VolumeState) (awake : Nat) (env : Nat → World) (n : Nat) :
    let s := Tailed.after start awake env n
    match s.tail.control with
    | .asking _ _ true _ => s.volume.phase = .offline
    | .building _ _ journal => s.volume.phase = .rescanning ∧ journal ≠ .unavailable
    | .reading => s.tail.degraded = true → s.volume.phase = .offline
    | _ => True := by
  intro s
  have sound : s.Sound := Tailed.after_sound n
  unfold Tailed.Sound at sound
  split
  case h_1 asks => rw [asks] at sound; exact sound.1 rfl
  case h_2 builds => rw [builds] at sound; exact ⟨sound.1, sound.2.1⟩
  case h_3 reads => rw [reads] at sound; exact sound
  case h_4 => trivial

end Goz.Daemon
