import Goz.Daemon.Tail

namespace Goz.Daemon

-- The supervisor's clock counts seconds awake.
def beatStall : Nat := 300
def busyStall : Nat := 30 * 60
def beatFresh : Nat := 60
def healthyAfter : Nat := 10 * 60
def maxRevives : Nat := 3

inductive Action
  | nothing
  | resetBudget
  | cancelIo (stalledSecs : Nat)
  | revive
  | giveUp
  | release
  deriving DecidableEq, Repr

def assess (pulse : Pulse) (now reviveAttempts : Nat) (provenHealthy snapshot : Bool) : Action :=
  match pulse with
  | .retired =>
    if snapshot then .release
    else if reviveAttempts ≥ maxRevives then .giveUp
    else .revive
  | .busy since => if now - since ≥ busyStall then .cancelIo (now - since) else .nothing
  | .beat at_ =>
    if now - at_ ≥ beatStall then .cancelIo (now - at_)
    else if reviveAttempts > 0 && provenHealthy then .resetBudget
    else .nothing

def accrueHealth (prev : Option Nat) (pulse : Pulse) (live : Bool) (now : Nat) : Option Nat :=
  match pulse with
  | .beat at_ => if live && now - at_ < beatFresh then some (prev.getD now) else none
  | .busy _ | .retired => none

def givenUp : VolumePhase → Option VolumePhase
  | .bootstrapping => some (.failed "never indexed: its tail kept stopping")
  | .live | .rescanning => some (.failed "tail thread kept dying; live updates stopped")
  | .snapshot | .offline | .failed _ => none

inductive PendingRevival
  | working
  | started (tail : Tail)
  | failed (error : String)
  | died

/-- A supervised volume with its tail's thread, and whether supervision has ended. -/
structure Supervised where
  volume : VolumeState
  tail : Option Tail
  pending : Option PendingRevival
  reviveAttempts : Nat
  beatingSince : Option Nat
  ended : Bool

namespace Supervised

/-- `spawned` says whether the worker thread could be started. -/
def launch (s : Supervised) (spawned : Bool) : Supervised :=
  { s with pending := if spawned then some .working else none }

def start (spawned : Bool) : Supervised :=
  let s : Supervised :=
    { volume := .found, tail := none, pending := none, reviveAttempts := 0, beatingSince := none, ended := false }
  s.launch spawned

def startFailed (s : Supervised) (error : String) : Supervised :=
  if s.volume.indexed then s else { s with volume := { s.volume with phase := .failed error } }

def pollRevival (s : Supervised) (pending : PendingRevival) : Supervised :=
  match pending with
  | .working => s
  | .started tail => { s with tail := some tail, pending := none }
  | .failed error => { s.startFailed error with pending := none }
  | .died => { s with pending := none }

def launchRevival (s : Supervised) (spawned : Bool) : Supervised :=
  let phase :=
    match s.volume.phase with
    | .live | .rescanning => .offline
    | phase => phase
  { s with
    volume := { s.volume with phase := phase }
    reviveAttempts := s.reviveAttempts + 1
    beatingSince := none }.launch spawned

def giveUp (s : Supervised) : Supervised :=
  { s with volume := { s.volume with phase := (givenUp s.volume.phase).getD s.volume.phase }, ended := true }

def pulse (s : Supervised) : Pulse := (s.tail.map (·.pulse)).getD .retired

/-- The anchor of the healthy run after one more observation. An original tail keeps none. -/
def observed (s : Supervised) (now : Nat) : Option Nat :=
  if s.reviveAttempts > 0 then accrueHealth s.beatingSince s.pulse (s.volume.phase = .live) now else s.beatingSince

def verdict (s : Supervised) (now : Nat) : Action :=
  assess s.pulse now s.reviveAttempts ((s.observed now).any fun since => now - since ≥ healthyAfter)
    (s.pulse = .retired && s.volume.phase = .snapshot)

def act (s : Supervised) (spawned : Bool) : Action → Supervised
  | .nothing | .cancelIo _ => s
  | .resetBudget => { s with reviveAttempts := 0, beatingSince := none }
  | .revive => s.launchRevival spawned
  | .giveUp => s.giveUp
  | .release => { s with ended := true }

def scan (s : Supervised) (now : Nat) (spawned : Bool) : Supervised :=
  match s.pending with
  | some pending => s.pollRevival pending
  | none => { s with beatingSince := s.observed now }.act spawned (s.verdict now)

end Supervised

inductive StartOutcome
  | started (awake : Nat)
  | failed (error : String)
  | died

inductive Turn
  | tail (w : World)
  | panic
  | worker (outcome : StartOutcome)
  | scan (now : Nat) (spawned : Bool)

namespace Supervised

/-- A turn of the thread of the tail: the one just started if it has not been collected yet. -/
def onTail (s : Supervised) (turn : Tailed → Tailed) : Supervised :=
  match s.pending, s.tail with
  | some (.started tail), _ =>
    let next := turn { volume := s.volume, tail := tail }
    { s with volume := next.volume, pending := some (.started next.tail) }
  | _, some tail =>
    let next := turn { volume := s.volume, tail := tail }
    { s with volume := next.volume, tail := some next.tail }
  | _, none => s

def reported (s : Supervised) : StartOutcome → Supervised
  | .started awake => { s with pending := some (.started (Tailed.spawn s.volume awake).tail) }
  | .failed error => { s.startFailed error with pending := some (.failed error) }
  | .died => { s with pending := some .died }

def step (s : Supervised) (turn : Turn) : Supervised :=
  match turn with
  | .tail w => s.onTail (·.step w)
  | .panic => s.onTail Tailed.retire
  | .worker outcome =>
    match s.pending with
    | some .working => s.reported outcome
    | _ => s
  | .scan now spawned => if s.ended then s else s.scan now spawned

end Supervised

def Tail.allowance (t : Tail) : Nat :=
  match t.control with
  | .start => maxRescans + 2
  | .firstBuilding _ => maxRescans + 1
  | .asking _ _ _ _ => maxRescans - t.rescans + 1
  | .building _ _ _ | .reading => maxRescans - t.rescans
  | .returned => 0

def World.Quiet (w : World) : Prop := ∀ walk, w.read = .ok (.ok walk) → walk.records = 0

namespace Tailed

variable {s : Tailed} {w : World} {reason : RescanReason} {resume : Resume} {journal : JournalSetup}
  {cursor : JournalInfo} {detail : String}

def due (s : Tailed) : Nat := s.volume.builds + s.tail.allowance

@[simp] theorem due_retire : s.retire.due = s.volume.builds := rfl

theorem due_resumeAt : (s.resumeAt resume cursor).due = s.volume.builds + (maxRescans - s.tail.rescans) := by
  simp [due, Tail.allowance]

theorem due_boundedRescan :
    (s.boundedRescan reason detail resume).due ≤ s.volume.builds + (maxRescans - s.tail.rescans) := by
  rcases s.boundedRescan_cases reason detail resume with ⟨-, over_, -, text, failed⟩ | ⟨room, volume, asks⟩
  · simp [due, Tail.allowance, over_, failed]
  · simp only [due, Tail.allowance, volume, asks]
    omega

theorem due_readOk (walk : Except String Walk) (reading : s.tail.control = .reading)
    (quiet : ∀ batch, walk = .ok batch → batch.records = 0) : (s.readOk walk).due ≤ s.due := by
  have here : s.due = s.volume.builds + (maxRescans - s.tail.rescans) := by simp [due, Tail.allowance, reading]
  have builds : s.recovered.volume.builds = s.volume.builds := by
    rw [recovered_volume]
    split <;> rfl
  rw [here, ← builds]
  cases walk with
  | error e => exact due_boundedRescan
  | ok batch => simp [readOk, quiet batch rfl, due, Tail.allowance, reading]

theorem due_readError {code : Nat} {text : String} (reading : s.tail.control = .reading) :
    (s.readError w code text).due ≤ s.due := by
  have here : s.due = s.volume.builds + (maxRescans - s.tail.rescans) := by simp [due, Tail.allowance, reading]
  rw [here]
  rcases s.readError_cases w code text with ⟨since, reason, rebuilds, -⟩ | ⟨stays, -, rescans, -, kept⟩
  · rw [rebuilds]
    exact due_boundedRescan
  · rcases kept with ⟨-, volume, -⟩ | volume <;> simp [due, Tail.allowance, stays, reading, rescans, volume]

theorem due_step (quiet : w.Quiet) : (s.step w).due ≤ s.due := by
  unfold Tailed.step
  cases control : s.tail.control with
  | start =>
    simp only [begin]
    split <;> simp [due, Tail.allowance, control] <;> omega
  | firstBuilding journal =>
    have here : s.due = s.volume.builds + (maxRescans + 1) := by simp [due, Tail.allowance, control]
    simp only [firstBuild]
    cases w.buildIndex with
    | aborted => simp [here]
    | failed e => simp [here]
    | done =>
      cases journal with
      | active cursor =>
        simp only [due_resumeAt, here, install_volume, stamp_volume, install_tail, stamp_tail]
        omega
      | refused => simp [here]
      | unavailable =>
        rw [here]
        simp only [due, Tail.allowance, rescan_tail, rescan_volume, install_volume, stamp_volume, install_tail,
          stamp_tail]
        omega
  | asking reason resume waited wait =>
    have here : s.due = s.volume.builds + (maxRescans - s.tail.rescans + 1) := by simp [due, Tail.allowance, control]
    rw [here]
    simp only [ask]
    split
    · cases waited <;> cases w.stop <;> simp [due, Tail.allowance]
    · simp only [due, Tail.allowance, beginBuild_volume, goto_volume, beginBuild_tail, goto_tail]
      omega
  | building reason resume journal =>
    have here : s.due = s.volume.builds + (maxRescans - s.tail.rescans) := by simp [due, Tail.allowance, control]
    simp only [rebuild]
    cases w.buildIndex with
    | aborted => simp [here]
    | failed e => simp [here]
    | done =>
      cases journal.cursor with
      | none => simp [here, rescanned]
      | some cursor => simp [here, rescanned, due_resumeAt]
  | reading =>
    simp only [readTurn]
    split
    · exact Nat.le_add_right _ _
    · split
      · rename_i walk read
        have le := due_readOk (s := s.stamp (.beat w.awake)) walk control fun batch ok => quiet batch (by rw [read, ok])
        exact le
      · exact due_readError (s := s.stamp (.beat w.awake)) control
  | returned => exact le_rfl

def Honest (t : Tail) : Prop := t.pulse = .retired ↔ t.control = .returned

theorem honest_boundedRescan (beats : s.tail.pulse ≠ .retired) :
    Honest (s.boundedRescan reason detail resume).tail := by
  rcases s.boundedRescan_cases reason detail resume with ⟨-, over_, pulse, -⟩ | ⟨-, -, asks⟩
  · simp [Honest, over_, pulse]
  · simp [Honest, asks, beats]

theorem honest_of_ne (beats : s.tail.pulse ≠ .retired) (on : s.tail.control ≠ .returned) : Honest s.tail :=
  ⟨fun silent => absurd silent beats, fun over_ => absurd over_ on⟩

theorem honest_retire : Honest s.retire.tail := ⟨fun _ => rfl, fun _ => rfl⟩

@[simp] theorem resumeAt_pulse : (s.resumeAt resume cursor).tail.pulse = s.tail.pulse := by
  cases resume <;> rfl

theorem honest_readOk (walk : Except String Walk) (beats : s.tail.pulse ≠ .retired)
    (reading : s.tail.control = .reading) : Honest (s.readOk walk).tail := by
  cases walk with
  | error e => exact honest_boundedRescan beats
  | ok walk =>
    simp only [readOk]
    split <;> exact honest_of_ne beats (by simp [reading])

theorem Honest.step (honest : Honest s.tail) (w : World) : Honest (s.step w).tail := by
  unfold Tailed.step
  cases control : s.tail.control with
  | start =>
    simp only [begin]
    split
    · have beats : s.tail.pulse ≠ .retired := fun silent => by simp [honest.mp silent] at control
      exact honest_of_ne beats (by simp)
    · exact honest_of_ne (by simp) (by simp)
  | firstBuilding journal =>
    simp only [firstBuild]
    cases w.buildIndex with
    | aborted => exact honest_retire
    | failed e => exact honest_retire
    | done =>
      cases journal with
      | active cursor => exact honest_of_ne (by simp) (by simp)
      | refused => exact honest_retire
      | unavailable => exact honest_of_ne (by simp) (by simp)
  | asking reason resume waited wait =>
    simp only [ask]
    split
    · cases w.stop with
      | true => exact honest_retire
      | false => exact honest_of_ne (by simp) (by simp)
    · exact honest_of_ne (by simp) (by simp)
  | building reason resume journal =>
    simp only [rebuild]
    cases w.buildIndex with
    | aborted => exact honest_retire
    | failed e => exact honest_retire
    | done =>
      cases journal.cursor with
      | none => exact honest_retire
      | some cursor => exact honest_of_ne (by simp [rescanned]) (by simp [rescanned])
  | reading =>
    simp only [readTurn]
    split
    · exact honest_retire
    · split
      · exact honest_readOk _ (by simp) control
      · rename_i code text _
        rcases (s.stamp (.beat w.awake)).readError_cases w code text with ⟨since, reason, rebuilds, -⟩ | kept
        · rw [rebuilds]
          exact honest_boundedRescan (by simp)
        · exact honest_of_ne (by simp [kept.2.1]) (by simp [kept.1, control])
  | returned => exact honest

end Tailed

def PendingRevival.allowance : PendingRevival → Nat
  | .working => maxRescans + 2
  | .started tail => tail.allowance
  | .failed _ | .died => 0

def Turn.Quiet : Turn → Prop
  | .tail w => w.Quiet
  | .panic | .worker _ | .scan _ _ => True

namespace Supervised

variable {s : Supervised} {turn : Turn} {now : Nat} {spawned : Bool}

def Refunds (s : Supervised) (turn : Turn) : Prop :=
  ∃ now spawned, turn = .scan now spawned ∧ s.pending = none ∧ s.verdict now = .resetBudget

theorem verdict_running (now : Nat) (running : s.pulse ≠ .retired) :
    s.verdict now = .nothing ∨ s.verdict now = .resetBudget ∨ ∃ secs, s.verdict now = .cancelIo secs := by
  unfold verdict assess
  cases pulse : s.pulse with
  | retired => exact absurd pulse running
  | busy since =>
    simp only
    split
    · exact .inr (.inr ⟨_, rfl⟩)
    · exact .inl rfl
  | beat at_ =>
    simp only
    split
    · exact .inr (.inr ⟨_, rfl⟩)
    · split
      · exact .inr (.inl rfl)
      · exact .inl rfl

theorem verdict_retired (retired : s.pulse = .retired) :
    s.verdict now =
      if s.volume.phase = .snapshot then .release
      else if s.reviveAttempts ≥ maxRevives then .giveUp
      else .revive := by
  simp [verdict, assess, retired]

theorem scan_cases (spawned : Bool) (none_ : s.pending = none) (strict : s.verdict now ≠ .resetBudget) :
    (s.pulse ≠ .retired ∧ s.scan now spawned = { s with beatingSince := s.observed now }) ∨
    s.pulse = .retired ∧
      (s.volume.phase = .snapshot ∧ s.scan now spawned = { s with beatingSince := s.observed now, ended := true } ∨
        s.volume.phase ≠ .snapshot ∧
          (maxRevives ≤ s.reviveAttempts ∧ s.scan now spawned = giveUp { s with beatingSince := s.observed now } ∨
            s.reviveAttempts < maxRevives ∧
              s.scan now spawned = launchRevival { s with beatingSince := s.observed now } spawned)) := by
  have scanned : s.scan now spawned = act { s with beatingSince := s.observed now } spawned (s.verdict now) := by
    simp only [scan, none_]
  rw [scanned]
  by_cases retired : s.pulse = .retired
  · right
    refine ⟨retired, ?_⟩
    rw [verdict_retired retired]
    split
    · rename_i snapshot
      exact .inl ⟨snapshot, rfl⟩
    · rename_i other
      right
      refine ⟨other, ?_⟩
      split
      · rename_i spent
        exact .inl ⟨spent, rfl⟩
      · rename_i room
        exact .inr ⟨Nat.lt_of_not_le room, rfl⟩
  · left
    refine ⟨retired, ?_⟩
    rcases verdict_running now retired with same | refund | ⟨secs, cancels⟩
    · rw [same]
      rfl
    · exact absurd refund strict
    · rw [cancels]
      rfl

variable {error : String} {f : Tailed → Tailed}

def due (s : Supervised) : Nat :=
  s.volume.builds + ((s.tail.map Tail.allowance).getD 0 + (s.pending.map PendingRevival.allowance).getD 0)

def Within (s : Supervised) : Prop :=
  s.due ≤ (s.reviveAttempts + 1) * (maxRescans + 2) ∧ s.reviveAttempts ≤ maxRevives

theorem due_onTail (spends : ∀ t, (f t).due ≤ t.due) : (s.onTail f).due ≤ s.due := by
  rcases s with ⟨volume, tail, pending, attempts, beating, ended⟩
  have collected : ∀ t : Tail, (f { volume := volume, tail := t }).volume.builds +
      (f { volume := volume, tail := t }).tail.allowance ≤ volume.builds + t.allowance := fun t => spends _
  rcases pending with - | (- | t | error | -)
  case some.started =>
    have le := collected t
    simp only [onTail, due, Option.map_some, Option.getD_some, PendingRevival.allowance]
    omega
  all_goals
    cases tail with
    | none => exact le_rfl
    | some t =>
      have le := collected t
      simp only [onTail, due, Option.map_some, Option.getD_some]
      omega

@[simp] theorem onTail_reviveAttempts : (s.onTail f).reviveAttempts = s.reviveAttempts := by
  unfold onTail
  split <;> rfl

@[simp] theorem startFailed_tail : (s.startFailed error).tail = s.tail := by
  unfold startFailed
  split <;> rfl

@[simp] theorem startFailed_builds : (s.startFailed error).volume.builds = s.volume.builds := by
  unfold startFailed
  split <;> rfl

@[simp] theorem startFailed_reviveAttempts : (s.startFailed error).reviveAttempts = s.reviveAttempts := by
  unfold startFailed
  split <;> rfl

theorem due_reported {outcome : StartOutcome} (working : s.pending = some .working) :
    (s.reported outcome).due ≤ s.due ∧ (s.reported outcome).reviveAttempts = s.reviveAttempts := by
  cases outcome with
  | started awake => exact ⟨by simp [reported, due, working, PendingRevival.allowance, Tailed.spawn, Tail.allowance], rfl⟩
  | failed error => exact ⟨by simp [reported, due, PendingRevival.allowance], by simp [reported]⟩
  | died => exact ⟨by simp [reported, due, PendingRevival.allowance], rfl⟩

theorem due_pollRevival {pending : PendingRevival} (here : s.pending = some pending) :
    (s.pollRevival pending).due ≤ s.due ∧ (s.pollRevival pending).reviveAttempts = s.reviveAttempts := by
  cases pending with
  | working => exact ⟨le_rfl, rfl⟩
  | started tail => exact ⟨by simp [pollRevival, due, here, PendingRevival.allowance], rfl⟩
  | failed error => exact ⟨by simp [pollRevival, due], by simp [pollRevival]⟩
  | died => exact ⟨by simp [pollRevival, due], rfl⟩

theorem Within.of_le {t : Supervised} (within : s.Within) (le : t.due ≤ s.due)
    (same : t.reviveAttempts = s.reviveAttempts) : t.Within := by
  rw [Within, same]
  exact ⟨le.trans within.1, within.2⟩

theorem Within.launchRevival (within : s.Within) (none_ : s.pending = none) (room : s.reviveAttempts < maxRevives) :
    (s.launchRevival spawned).Within := by
  have before : s.due = s.volume.builds + (s.tail.map Tail.allowance).getD 0 := by simp [due, none_]
  obtain ⟨le, -⟩ := within
  refine ⟨?_, room⟩
  rw [before] at le
  have paid : (s.launchRevival spawned).due ≤ s.volume.builds + (s.tail.map Tail.allowance).getD 0 + (maxRescans + 2) := by
    simp only [due, Supervised.launchRevival, launch]
    cases spawned
    · simp
    · simp [PendingRevival.allowance, Nat.add_assoc]
  calc (s.launchRevival spawned).due ≤ s.volume.builds + (s.tail.map Tail.allowance).getD 0 + (maxRescans + 2) := paid
    _ ≤ (s.reviveAttempts + 1) * (maxRescans + 2) + (maxRescans + 2) := Nat.add_le_add_right le _
    _ = (s.reviveAttempts + 1 + 1) * (maxRescans + 2) := (Nat.succ_mul _ _).symm

theorem Within.step (within : s.Within) (quiet : turn.Quiet) (strict : ¬ s.Refunds turn) : (s.step turn).Within := by
  cases turn with
  | tail w => exact within.of_le (due_onTail fun t => Tailed.due_step quiet) onTail_reviveAttempts
  | panic => exact within.of_le (due_onTail fun t => Nat.le_add_right _ _) onTail_reviveAttempts
  | worker outcome =>
    simp only [step]
    split
    · rename_i working
      exact within.of_le (due_reported working).1 (due_reported working).2
    · exact within
  | scan now spawned =>
    simp only [step]
    split
    · exact within
    · cases here : s.pending with
      | some pending =>
        simp only [scan, here]
        exact within.of_le (due_pollRevival here).1 (due_pollRevival here).2
      | none =>
        have watched : Within { s with beatingSince := s.observed now } := within
        rcases scan_cases spawned here fun refund => strict ⟨now, spawned, rfl, here, refund⟩ with
          ⟨-, same⟩ | ⟨-, ⟨-, same⟩ | ⟨-, ⟨-, same⟩ | ⟨room, same⟩⟩⟩
        · rw [same]
          exact watched
        · rw [same]
          exact watched.of_le le_rfl rfl
        · rw [same]
          exact watched.of_le le_rfl rfl
        · rw [same]
          exact watched.launchRevival here room

end Supervised

end Goz.Daemon
