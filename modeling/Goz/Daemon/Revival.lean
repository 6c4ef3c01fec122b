import Goz.Daemon.Supervised

namespace Goz.Daemon

variable {s : Supervised} {spawned : Bool}

namespace Supervised

variable {turn : Turn} {now : Nat} {f : Tailed → Tailed}

def Running (s : Supervised) : Prop :=
  (∃ t, s.pending = some (.started t) ∧ t.control ≠ .returned) ∨ ∃ t, s.tail = some t ∧ t.control ≠ .returned

def Retired (s : Supervised) : Prop := ∀ t, s.tail = some t → t.control = .returned

def Promises : VolumePhase → Prop
  | .bootstrapping | .live | .rescanning => True
  | .snapshot | .offline | .failed _ => False

structure Sane (s : Supervised) : Prop where
  collected : ∀ t, s.tail = some t → Tailed.Honest t
  fresh : ∀ t, s.pending = some (.started t) → Tailed.Honest t
  alone : s.pending ≠ none → s.Retired
  over_ : s.ended → s.pending = none ∧ s.Retired ∧ ¬ Promises s.volume.phase

theorem Sane.pulse_iff (sane : s.Sane) : s.pulse = .retired ↔ s.Retired := by
  cases held : s.tail with
  | none => simp [pulse, Retired, held]
  | some t =>
    have honest : t.pulse = .retired ↔ t.control = .returned := sane.collected t held
    simp [pulse, Retired, held, honest]

theorem Sane.going (sane : s.Sane) (busy : s.pending ≠ none) : s.ended = false := by
  by_contra done
  exact busy (sane.over_ (by simpa using done)).1

theorem not_promises_givenUp (phase : VolumePhase) : ¬ Promises ((givenUp phase).getD phase) := by
  cases phase <;> simp [givenUp, Promises]

section Sane

def Still (f : Tailed → Tailed) : Prop :=
  ∀ t, t.tail.control = .returned → (f t).tail.control = .returned ∧ (f t).volume = t.volume

theorem still_step (w : World) : Still (·.step w) := by
  intro t done
  simp [Tailed.step, done]

theorem still_retire : Still Tailed.retire := fun _ _ => ⟨rfl, rfl⟩

theorem Sane.onTail (sane : s.Sane) (honest : ∀ t, Tailed.Honest t.tail → Tailed.Honest (f t).tail)
    (still : Still f) : (s.onTail f).Sane := by
  rcases s with ⟨volume, tail, pending, attempts, beating, ended⟩
  have going := sane.going
  obtain ⟨collected, fresh, alone, over_⟩ := sane
  rcases pending with - | (- | t | error | -)
  case some.started =>
    refine ⟨collected, ?_, fun _ => alone (by simp), fun done => ?_⟩
    · rintro t' ⟨⟩
      exact honest { volume := volume, tail := t } (fresh t rfl)
    · have on : ended = false := going (by simp)
      exact absurd done (by simp [onTail, on])
  all_goals
    cases tail with
    | none => exact ⟨collected, fresh, alone, over_⟩
    | some t =>
      refine ⟨?_, fun _ absent => by simp [onTail] at absent, ?_, ?_⟩
      · rintro t' ⟨⟩
        exact honest { volume := volume, tail := t } (collected t rfl)
      · rintro some_ t' ⟨⟩
        exact (still _ (alone some_ t rfl)).1
      · intro done
        obtain ⟨none_, retired, kept⟩ := over_ done
        have frozen := still { volume := volume, tail := t } (retired t rfl)
        refine ⟨none_, ?_, ?_⟩
        · rintro t' ⟨⟩
          exact frozen.1
        · change ¬ Promises (f { volume := volume, tail := t }).volume.phase
          rw [frozen.2]
          exact kept

theorem startFailed_eq (s : Supervised) (error : String) :
    ∃ phase, s.startFailed error = { s with volume := { s.volume with phase := phase } } ∧
      (phase = s.volume.phase ∨ phase = .failed error) := by
  unfold startFailed
  split
  · exact ⟨s.volume.phase, rfl, .inl rfl⟩
  · exact ⟨.failed error, rfl, .inr rfl⟩

variable (sane : s.Sane)
include sane

theorem Sane.reported (working : s.pending = some .working) (outcome : StartOutcome) :
    (s.reported outcome).Sane := by
  have retired : s.Retired := sane.alone (by simp [working])
  have going : s.ended = false := sane.going (by simp [working])
  cases outcome with
  | started awake =>
    refine ⟨sane.collected, ?_, fun _ => retired, fun done => by simp [Supervised.reported, going] at done⟩
    rintro t ⟨⟩
    simp [Tailed.Honest, Tailed.spawn]
  | failed error =>
    obtain ⟨phase, same, -⟩ := s.startFailed_eq error
    simp only [Supervised.reported, same]
    exact ⟨sane.collected, by simp, fun _ => retired, fun done => by simp [going] at done⟩
  | died => exact ⟨sane.collected, by simp [Supervised.reported], fun _ => retired, fun done => by
      simp [Supervised.reported, going] at done⟩

theorem Sane.pollRevival {pending : PendingRevival} (here : s.pending = some pending) :
    (s.pollRevival pending).Sane := by
  have retired : s.Retired := sane.alone (by simp [here])
  have going : s.ended = false := sane.going (by simp [here])
  cases pending with
  | working => exact sane
  | started tail =>
    refine ⟨?_, by simp [Supervised.pollRevival], by simp [Supervised.pollRevival], fun done => ?_⟩
    · rintro t ⟨⟩
      exact sane.fresh tail here
    · simp [Supervised.pollRevival, going] at done
  | failed error =>
    obtain ⟨phase, same, -⟩ := s.startFailed_eq error
    simp only [Supervised.pollRevival, same]
    exact ⟨sane.collected, by simp, by simp, fun done => by simp [going] at done⟩
  | died =>
    exact ⟨sane.collected, by simp [Supervised.pollRevival], by simp [Supervised.pollRevival], fun done => by
      simp [Supervised.pollRevival, going] at done⟩

theorem Sane.launchRevival (retired : s.Retired) (going : s.ended = false) :
    (s.launchRevival spawned).Sane := by
  refine ⟨sane.collected, ?_, fun _ => retired, fun done => ?_⟩
  · intro t started
    cases spawned <;> simp [launchRevival, launch] at started
  · simp [Supervised.launchRevival, launch, going] at done

theorem Sane.scan (going : s.ended = false) (strict : ¬ s.Refunds (.scan now spawned)) :
    (s.scan now spawned).Sane := by
  cases here : s.pending with
  | some pending =>
    simp only [Supervised.scan, here]
    exact sane.pollRevival here
  | none =>
    have watched : Sane { s with beatingSince := s.observed now } := { sane with }
    rcases scan_cases spawned here fun refund => strict ⟨now, spawned, rfl, here, refund⟩ with
      ⟨-, same⟩ | ⟨silent, ⟨snapshot, same⟩ | ⟨-, ⟨-, same⟩ | ⟨-, same⟩⟩⟩
    · rw [same]
      exact watched
    · rw [same]
      exact ⟨sane.collected, sane.fresh, sane.alone, fun _ =>
        ⟨here, sane.pulse_iff.mp silent, by simp [snapshot, Promises]⟩⟩
    · rw [same]
      exact ⟨sane.collected, sane.fresh, sane.alone, fun _ =>
        ⟨here, sane.pulse_iff.mp silent, not_promises_givenUp _⟩⟩
    · rw [same]
      exact watched.launchRevival (sane.pulse_iff.mp silent) going

theorem Sane.step (strict : ¬ s.Refunds turn) : (s.step turn).Sane := by
  cases turn with
  | tail w => exact sane.onTail (fun t honest => honest.step w) (still_step w)
  | panic => exact sane.onTail (fun _ _ => Tailed.honest_retire) still_retire
  | worker outcome =>
    simp only [step]
    split
    · rename_i working
      exact sane.reported working outcome
    · exact sane
  | scan now spawned =>
    simp only [step]
    split
    · exact sane
    · rename_i going
      exact sane.scan (by simpa using going) strict

end Sane

def Calm (s : Supervised) : Prop := ¬ s.Running → s.volume.phase ≠ .snapshot

theorem onTail_idle (still : Still f) (idle : ¬ s.Running) : (s.onTail f).volume = s.volume := by
  rcases s with ⟨volume, tail, pending, attempts, beating, ended⟩
  rcases pending with - | (- | t | error | -)
  case some.started =>
    have done : t.control = .returned := by
      by_contra on
      exact idle (.inl ⟨t, rfl, on⟩)
    exact (still { volume := volume, tail := t } done).2
  all_goals
    cases tail with
    | none => rfl
    | some t =>
      have done : t.control = .returned := by
        by_contra on
        exact idle (.inr ⟨t, rfl, on⟩)
      exact (still { volume := volume, tail := t } done).2

theorem reported_phase {outcome : StartOutcome} :
    (s.reported outcome).volume.phase = s.volume.phase ∨ ∃ e, (s.reported outcome).volume.phase = .failed e := by
  cases outcome with
  | started awake => exact .inl rfl
  | failed error =>
    obtain ⟨phase, same, which⟩ := s.startFailed_eq error
    simp only [reported, same]
    exact which.imp id fun failed => ⟨error, failed⟩
  | died => exact .inl rfl

theorem scan_phase (strict : ¬ s.Refunds (.scan now spawned)) :
    (s.scan now spawned).volume.phase = s.volume.phase ∨ (s.scan now spawned).volume.phase = .offline ∨
      ∃ e, (s.scan now spawned).volume.phase = .failed e := by
  cases here : s.pending with
  | some pending =>
    simp only [scan, here]
    cases pending with
    | working => exact .inl rfl
    | started tail => exact .inl rfl
    | failed error =>
      obtain ⟨phase, same, which⟩ := s.startFailed_eq error
      simp only [pollRevival, same]
      exact which.imp id fun failed => .inr ⟨error, failed⟩
    | died => exact .inl rfl
  | none =>
    rcases scan_cases spawned here fun refund => strict ⟨now, spawned, rfl, here, refund⟩ with
      ⟨-, same⟩ | ⟨-, ⟨-, same⟩ | ⟨-, ⟨-, same⟩ | ⟨-, same⟩⟩⟩
    · exact .inl (by rw [same])
    · exact .inl (by rw [same])
    · rw [same]
      cases phase : s.volume.phase <;> simp [giveUp, givenUp, phase]
    · rw [same]
      cases phase : s.volume.phase <;> simp [launchRevival, launch, phase]

theorem Calm.step (calm : s.Calm) (strict : ¬ s.Refunds turn)
    (leaves : s.Running → ¬ (s.step turn).Running → (s.step turn).volume.phase ≠ .snapshot) : (s.step turn).Calm := by
  intro idle
  by_cases running : s.Running
  · exact leaves running idle
  · have before := calm running
    cases turn with
    | tail w =>
      simp only [step]
      rw [onTail_idle (still_step w) running]
      exact before
    | panic =>
      simp only [step]
      rw [onTail_idle still_retire running]
      exact before
    | worker outcome =>
      simp only [step]
      split
      · rcases reported_phase with same | ⟨e, failed⟩
        · rwa [same]
        · simp [failed]
      · exact before
    | scan now spawned =>
      simp only [step]
      split
      · exact before
      · rcases scan_phase strict with same | offline | ⟨e, failed⟩
        · rwa [same]
        · simp [offline]
        · simp [failed]

def Reported (s : Supervised) : Prop := s.pending ≠ none ∧ s.pending ≠ some .working

theorem onTail_pending_iff :
    ((s.onTail f).pending = none ↔ s.pending = none) ∧
      ((s.onTail f).pending = some .working ↔ s.pending = some .working) := by
  unfold onTail
  split
  · rename_i here
    simp [here]
  · exact ⟨Iff.rfl, Iff.rfl⟩
  · exact ⟨Iff.rfl, Iff.rfl⟩

@[simp] theorem onTail_ended : (s.onTail f).ended = s.ended := by
  unfold onTail
  split <;> rfl

theorem Retired.onTail (retired : s.Retired) (still : Still f) : (s.onTail f).Retired := by
  unfold Supervised.onTail
  split
  · exact retired
  · rename_i held _
    rintro t ⟨⟩
    exact (still _ (retired _ held)).1
  · exact retired

theorem reported_reported (outcome : StartOutcome) : (s.reported outcome).Reported := by
  cases outcome <;> simp [Reported, reported]

theorem waiting_step (waiting : s.pending = some .working) : (s.step turn).pending ≠ none := by
  have busy : s.pending ≠ none := by simp [waiting]
  cases turn with
  | tail w => exact fun none_ => busy (onTail_pending_iff.1.mp none_)
  | panic => exact fun none_ => busy (onTail_pending_iff.1.mp none_)
  | worker outcome =>
    simp only [step, waiting]
    exact (reported_reported outcome).1
  | scan now spawned =>
    simp only [step]
    split
    · exact busy
    · simp [scan, waiting, pollRevival]

theorem Reported.onTail (reported : s.Reported) : (s.onTail f).Reported :=
  ⟨fun none_ => reported.1 (onTail_pending_iff.1.mp none_), fun working => reported.2 (onTail_pending_iff.2.mp working)⟩

theorem Reported.step (reported : s.Reported) (other : ∀ now spawned, turn ≠ .scan now spawned) :
    (s.step turn).Reported := by
  cases turn with
  | tail w => exact reported.onTail
  | panic => exact reported.onTail
  | worker outcome =>
    simp only [step]
    split
    · rename_i working
      exact absurd working reported.2
    · exact reported
  | scan now spawned => exact absurd rfl (other now spawned)

theorem Reported.scan (reported : s.Reported) (going : s.ended = false) :
    (s.step (.scan now spawned)).pending = none := by
  cases here : s.pending with
  | none => exact absurd here reported.1
  | some pending =>
    simp only [Supervised.step, going, Bool.false_eq_true, if_false, Supervised.scan, here]
    cases pending with
    | working => exact absurd here reported.2
    | started tail => rfl
    | failed error => rfl
    | died => rfl

theorem active_step (sane : s.Sane) (none_ : s.pending = none) (going : s.ended = false) (active : ¬ s.Retired)
    (strict : ¬ s.Refunds turn) : (s.step turn).pending = none ∧ (s.step turn).ended = false := by
  cases turn with
  | tail w => exact ⟨onTail_pending_iff.1.mpr none_, onTail_ended.trans going⟩
  | panic => exact ⟨onTail_pending_iff.1.mpr none_, onTail_ended.trans going⟩
  | worker outcome =>
    have same : s.step (.worker outcome) = s := by simp [step, none_]
    rw [same]
    exact ⟨none_, going⟩
  | scan now spawned =>
    simp only [step, going, Bool.false_eq_true, if_false]
    rcases scan_cases spawned none_ fun refund => strict ⟨now, spawned, rfl, none_, refund⟩ with
      ⟨-, same⟩ | ⟨silent, -⟩
    · rw [same]
      exact ⟨none_, going⟩
    · exact absurd (sane.pulse_iff.mp silent) active

/-- Nothing runs and nothing is being started: the next scan decides. -/
structure Idle (s : Supervised) : Prop where
  nothing : s.pending = none
  retired : s.Retired
  going : s.ended = false

theorem Idle.step (idle : s.Idle) (other : ∀ now spawned, turn ≠ .scan now spawned) : (s.step turn).Idle := by
  cases turn with
  | tail w =>
    exact ⟨onTail_pending_iff.1.mpr idle.nothing, idle.retired.onTail (still_step w), onTail_ended.trans idle.going⟩
  | panic =>
    exact ⟨onTail_pending_iff.1.mpr idle.nothing, idle.retired.onTail still_retire, onTail_ended.trans idle.going⟩
  | worker outcome =>
    simp only [step, idle.nothing]
    exact idle
  | scan now spawned => exact absurd rfl (other now spawned)

theorem Idle.not_running (idle : s.Idle) : ¬ s.Running := by
  rintro (⟨t, started, -⟩ | ⟨t, held, on⟩)
  · simp [idle.nothing] at started
  · exact on (idle.retired t held)

theorem Idle.scan (idle : s.Idle) (sane : s.Sane) (calm : s.Calm) (strict : ¬ s.Refunds (.scan now spawned)) :
    (s.step (.scan now spawned)).ended ∨
      s.reviveAttempts < maxRevives ∧ (s.step (.scan now spawned)).reviveAttempts = s.reviveAttempts + 1 := by
  simp only [Supervised.step, idle.going, Bool.false_eq_true, if_false]
  rcases scan_cases spawned idle.nothing fun refund => strict ⟨now, spawned, rfl, idle.nothing, refund⟩ with
    ⟨beats, -⟩ | ⟨-, ⟨snapshot, -⟩ | ⟨-, ⟨-, same⟩ | ⟨room, same⟩⟩⟩
  · exact absurd (sane.pulse_iff.mpr idle.retired) beats
  · exact absurd snapshot (calm idle.not_running)
  · exact .inl (by rw [same]; rfl)
  · exact .inr ⟨room, by rw [same]; rfl⟩

theorem reviveAttempts_step (strict : ¬ s.Refunds turn) : s.reviveAttempts ≤ (s.step turn).reviveAttempts := by
  cases turn with
  | tail w => exact onTail_reviveAttempts.ge
  | panic => exact onTail_reviveAttempts.ge
  | worker outcome =>
    simp only [step]
    split
    · rename_i working
      exact (due_reported working).2.ge
    · exact le_rfl
  | scan now spawned =>
    simp only [step]
    split
    · exact le_rfl
    · cases here : s.pending with
      | some pending =>
        simp only [scan, here]
        exact (due_pollRevival here).2.ge
      | none =>
        rcases scan_cases spawned here fun refund => strict ⟨now, spawned, rfl, here, refund⟩ with
          ⟨-, same⟩ | ⟨-, ⟨-, same⟩ | ⟨-, ⟨-, same⟩ | ⟨-, same⟩⟩⟩
        · rw [same]
        · rw [same]
        · rw [same]
          exact le_rfl
        · rw [same]
          exact Nat.le_succ _

theorem ended_step (sane : s.Sane) (done : s.ended) (strict : ¬ s.Refunds turn) : (s.step turn).ended := by
  have nothing := (sane.over_ done).1
  cases turn with
  | tail w => exact onTail_ended.trans done
  | panic => exact onTail_ended.trans done
  | worker outcome =>
    simp only [step, nothing]
    exact done
  | scan now spawned =>
    simp only [step, done, if_true]

end Supervised

variable {n : Nat}

def Supervised.after (spawned : Bool) (turns : Nat → Turn) (n : Nat) : Supervised :=
  Machine.run step (start spawned) turns n

/-- The threads take turns: the supervisor keeps scanning, a start worker comes back, and every tail retires without
leaving a snapshot. -/
structure EveryTailRetires (spawned : Bool) (turns : Nat → Turn) : Prop where
  scans : ∀ n, ∃ m, n ≤ m ∧ ∃ now spawned, turns m = .scan now spawned
  reports : ∀ n, (Supervised.after spawned turns n).pending = some .working →
    ∃ m, n ≤ m ∧ (Supervised.after spawned turns m).pending ≠ some .working
  retires : ∀ n, (Supervised.after spawned turns n).Running → ∃ m, n ≤ m ∧ ¬ (Supervised.after spawned turns m).Running
  unlocked : ∀ n, (Supervised.after spawned turns n).Running → ¬ (Supervised.after spawned turns (n + 1)).Running →
    (Supervised.after spawned turns (n + 1)).volume.phase ≠ .snapshot

namespace Supervised

variable {turns : Nat → Turn} {m : Nat}

theorem after_within (quiet : ∀ n, (turns n).Quiet) (strict : ∀ n, ¬ (after spawned turns n).Refunds (turns n))
    (n : Nat) : (after spawned turns n).Within := by
  apply Machine.invariant
  · cases spawned <;> simp [Within, start, launch, due, VolumeState.found, PendingRevival.allowance]
  · intro n within
    exact within.step (quiet n) (strict n)

theorem after_sane (strict : ∀ n, ¬ (after spawned turns n).Refunds (turns n)) (n : Nat) :
    (after spawned turns n).Sane := by
  apply Machine.invariant
  · refine ⟨by simp [start, launch], ?_, fun _ => by simp [Retired, start, launch], by simp [start, launch]⟩
    cases spawned <;> simp [start, launch]
  · intro n sane
    exact sane.step (strict n)

variable (strict : ∀ n, ¬ (after spawned turns n).Refunds (turns n))
include strict

theorem reviveAttempts_mono (le : n ≤ m) :
    (after spawned turns n).reviveAttempts ≤ (after spawned turns m).reviveAttempts := by
  induction m, le using Nat.le_induction with
  | base => exact le_rfl
  | succ m le ih => exact ih.trans (reviveAttempts_step (strict m))

variable (retires : EveryTailRetires spawned turns)
include retires

theorem after_calm (n : Nat) : (after spawned turns n).Calm := by
  induction n with
  | zero =>
    intro _
    simp [after, Machine.run, start, launch, VolumeState.found]
  | succ n ih => exact Calm.step ih (strict n) (retires.unlocked n)

theorem collected_of_reported (reported : (after spawned turns n).Reported) :
    ∃ m, n ≤ m ∧ (after spawned turns m).pending = none := by
  obtain ⟨j, le, scans⟩ := retires.scans n
  obtain ⟨k, after_, here, now, restarted, scan⟩ :=
    Machine.meets (p := fun n => (after spawned turns n).Reported) (q := fun n => ∃ now spawned, turns n = .scan now spawned)
      reported (fun n _ here other => here.step fun now restarted scan => other ⟨now, restarted, scan⟩) le scans
  refine ⟨k + 1, by omega, ?_⟩
  change ((after spawned turns k).step (turns k)).pending = none
  rw [scan]
  exact here.scan ((after_sane strict k).going here.1)

theorem exists_nothing_pending (n : Nat) : ∃ m, n ≤ m ∧ (after spawned turns m).pending = none := by
  by_cases waiting : (after spawned turns n).pending = some .working
  · obtain ⟨j, le, back⟩ := retires.reports n waiting
    obtain ⟨k, after_, -, here, next⟩ :=
      Machine.leaves (p := fun n => (after spawned turns n).pending = some .working) waiting le back
    obtain ⟨m, later, none_⟩ :=
      collected_of_reported strict retires (n := k + 1) ⟨waiting_step here, next⟩
    exact ⟨m, by omega, none_⟩
  · by_cases none_ : (after spawned turns n).pending = none
    · exact ⟨n, le_rfl, none_⟩
    · exact collected_of_reported strict retires ⟨none_, waiting⟩

theorem exists_idle (n : Nat) : ∃ m, n ≤ m ∧ ((after spawned turns m).ended ∨ (after spawned turns m).Idle) := by
  obtain ⟨m, le, none_⟩ := exists_nothing_pending strict retires n
  by_cases going : (after spawned turns m).ended = false
  · by_cases retired : (after spawned turns m).Retired
    · exact ⟨m, le, .inr ⟨none_, retired, going⟩⟩
    · -- a tail runs, and no scan touches it until it retires
      have running : (after spawned turns m).Running := by
        simp only [Retired, not_forall] at retired
        obtain ⟨t, held, on⟩ := retired
        exact .inr ⟨t, held, on⟩
      obtain ⟨j, later, idle⟩ := retires.retires m running
      obtain ⟨k, after_, -, ⟨free, on, active⟩, ends⟩ :=
        Machine.leaves (p := fun n => (after spawned turns n).pending = none ∧ (after spawned turns n).ended = false ∧
          ¬ (after spawned turns n).Retired) ⟨none_, going, retired⟩ later fun both =>
            both.2.2 fun t held => by_contra fun on => idle (.inr ⟨t, held, on⟩)
      have next := active_step (after_sane strict k) free on active (strict k)
      have back : (after spawned turns (k + 1)).Retired := by
        by_contra other
        exact ends ⟨next.1, next.2, other⟩
      exact ⟨k + 1, by omega, .inr ⟨next.1, back, next.2⟩⟩
  · exact ⟨m, le, .inl (by simpa using going)⟩

theorem decided_of_idle (idle : (after spawned turns n).Idle) :
    ∃ m, n ≤ m ∧ ((after spawned turns (m + 1)).ended ∨ (after spawned turns m).reviveAttempts < maxRevives ∧
      (after spawned turns (m + 1)).reviveAttempts = (after spawned turns m).reviveAttempts + 1) := by
  obtain ⟨j, le, scans⟩ := retires.scans n
  obtain ⟨k, after_, here, now, restarted, scan⟩ :=
    Machine.meets (p := fun n => (after spawned turns n).Idle) (q := fun n => ∃ now spawned, turns n = .scan now spawned)
      idle (fun n _ here other => here.step fun now restarted scan => other ⟨now, restarted, scan⟩) le scans
  refine ⟨k, after_, ?_⟩
  have next : after spawned turns (k + 1) = (after spawned turns k).step (.scan now restarted) := by
    rw [← scan]
    rfl
  rw [next]
  exact here.scan (after_sane strict k) (after_calm strict retires k) (scan ▸ strict k)

theorem exists_ended (left n : Nat) (budget : maxRevives - (after spawned turns n).reviveAttempts ≤ left) :
    ∃ m, n ≤ m ∧ (after spawned turns m).ended := by
  induction left generalizing n with
  | zero =>
    obtain ⟨m, le, done | idle⟩ := exists_idle strict retires n
    · exact ⟨m, le, done⟩
    · obtain ⟨k, later, done | ⟨room, -⟩⟩ := decided_of_idle strict retires idle
      · exact ⟨k + 1, by omega, done⟩
      · have spent := reviveAttempts_mono strict (le.trans later)
        omega
  | succ left ih =>
    obtain ⟨m, le, done | idle⟩ := exists_idle strict retires n
    · exact ⟨m, le, done⟩
    · obtain ⟨k, later, done | ⟨room, more⟩⟩ := decided_of_idle strict retires idle
      · exact ⟨k + 1, by omega, done⟩
      · have spent := reviveAttempts_mono strict (le.trans later)
        obtain ⟨m', last, done⟩ := ih (k + 1) (by omega)
        exact ⟨m', by omega, done⟩

omit retires

theorem ended_mono (done : (after spawned turns n).ended) (le : n ≤ m) : (after spawned turns m).ended := by
  induction m, le using Nat.le_induction with
  | base => exact done
  | succ m le ih => exact ended_step (after_sane strict m) ih (strict m)

end Supervised

open Supervised

/-- Rebuilds are bounded by the two budgets together, and a volume whose tails all retire is given up on with a phase
that promises nothing. -/
theorem full_builds_bounded (spawned : Bool) (turns : Nat → Turn) (quiet : ∀ n, (turns n).Quiet)
    (strict : ∀ n, ¬ (Supervised.after spawned turns n).Refunds (turns n)) :
    (∀ n, (Supervised.after spawned turns n).volume.builds ≤ (maxRevives + 1) * (maxRescans + 2)) ∧
    (EveryTailRetires spawned turns →
      ∃ n, ∀ m, n ≤ m → (Supervised.after spawned turns m).ended ∧
        (Supervised.after spawned turns m).volume.phase ≠ .bootstrapping ∧
        (Supervised.after spawned turns m).volume.phase ≠ .live ∧
        (Supervised.after spawned turns m).volume.phase ≠ .rescanning) := by
  constructor
  · intro n
    obtain ⟨paid, budget⟩ := after_within quiet strict n
    calc (after spawned turns n).volume.builds ≤ (after spawned turns n).due :=
          Nat.le_add_right _ _
      _ ≤ ((after spawned turns n).reviveAttempts + 1) * (maxRescans + 2) := paid
      _ ≤ (maxRevives + 1) * (maxRescans + 2) := Nat.mul_le_mul_right _ (by omega)
  · intro retires
    obtain ⟨n, -, done⟩ := exists_ended strict retires maxRevives 0 (Nat.sub_le _ _)
    refine ⟨n, fun m le => ?_⟩
    have over_ := ended_mono strict done le
    have phase := ((after_sane strict m).over_ over_).2.2
    refine ⟨over_, ?_, ?_, ?_⟩ <;> intro same <;> simp [same, Supervised.Promises] at phase

def barredDisk (n : Nat) : Turn :=
  if n % 2 = 0 then .worker (.failed "opening the volume: access denied") else .scan (30 * n) true

def Supervised.Untailed (s : Supervised) : Prop := s.tail = none ∧ ∀ t, s.pending ≠ some (.started t)

theorem Supervised.Untailed.scan (untailed : s.Untailed) (now : Nat) (spawned : Bool) :
    (s.scan now spawned).Untailed := by
  cases here : s.pending with
  | some pending =>
    simp only [Supervised.scan, here]
    cases pending with
    | working => exact untailed
    | started t => exact absurd here (untailed.2 t)
    | failed error =>
      obtain ⟨phase, same, -⟩ := s.startFailed_eq error
      simp only [pollRevival, same]
      exact ⟨untailed.1, by simp⟩
    | died => exact ⟨untailed.1, by simp [pollRevival]⟩
  | none =>
    simp only [Supervised.scan, here]
    cases s.verdict now with
    | revive =>
      refine ⟨untailed.1, ?_⟩
      cases spawned <;> simp [act, launchRevival, launch]
    | _ => exact ⟨untailed.1, by simp [act, giveUp]⟩

theorem Supervised.Untailed.reported (untailed : s.Untailed) (error : String) :
    (s.step (.worker (.failed error))).Untailed := by
  simp only [step]
  split
  · obtain ⟨phase, same, -⟩ := s.startFailed_eq error
    simp only [Supervised.reported, same]
    exact ⟨untailed.1, by simp⟩
  · exact untailed

theorem barredDisk_untailed (n : Nat) : (after true barredDisk n).Untailed := by
  induction n with
  | zero => exact ⟨rfl, by simp [after, Machine.run, start, launch]⟩
  | succ n ih =>
    change ((after true barredDisk n).step (barredDisk n)).Untailed
    by_cases even : n % 2 = 0
    · have turn : barredDisk n = .worker (.failed "opening the volume: access denied") := by simp [barredDisk, even]
      rw [turn]
      exact ih.reported _
    · have turn : barredDisk n = .scan (30 * n) true := by simp [barredDisk, even]
      rw [turn, step]
      split
      · exact ih
      · exact ih.scan _ _

theorem barredDisk_strict (n : Nat) : ¬ (after true barredDisk n).Refunds (barredDisk n) := by
  rintro ⟨now, spawned, -, -, refund⟩
  have silent : (after true barredDisk n).pulse = .retired := by
    simp [pulse, (barredDisk_untailed n).1]
  rw [verdict_retired silent] at refund
  split at refund
  · simp at refund
  · split at refund <;> simp at refund

theorem barredDisk_not_running (n : Nat) : ¬ (after true barredDisk n).Running := by
  rintro (⟨t, started, -⟩ | ⟨t, held, -⟩)
  · exact (barredDisk_untailed n).2 t started
  · simp [(barredDisk_untailed n).1] at held

theorem barredDisk_reports (waiting : (after true barredDisk n).pending = some .working)
    (even : n % 2 = 0) : (after true barredDisk (n + 1)).pending ≠ some .working := by
  have turn : barredDisk n = .worker (.failed "opening the volume: access denied") := by simp [barredDisk, even]
  have next : after true barredDisk (n + 1) = (after true barredDisk n).reported
      (.failed "opening the volume: access denied") := by
    change (after true barredDisk n).step (barredDisk n) = _
    simp only [turn, step, waiting]
  rw [next]
  exact (reported_reported _).2

theorem barredDisk_retires : EveryTailRetires true barredDisk where
  scans := fun n => ⟨2 * n + 1, by omega, 30 * (2 * n + 1), true, by simp [barredDisk, Nat.add_mod]⟩
  reports := by
    intro n waiting
    by_cases even : n % 2 = 0
    · exact ⟨n + 1, by omega, barredDisk_reports waiting even⟩
    · by_cases still : (after true barredDisk (n + 1)).pending = some .working
      · exact ⟨n + 2, by omega, barredDisk_reports still (by omega)⟩
      · exact ⟨n + 1, by omega, still⟩
  retires := fun n running => absurd running (barredDisk_not_running n)
  unlocked := fun n running => absurd running (barredDisk_not_running n)

theorem barredDisk_given_up :
    (Supervised.after true barredDisk 15).ended = false ∧ (Supervised.after true barredDisk 16).ended = true ∧
    (∀ n, (Supervised.after true barredDisk n).volume.builds ≤ (maxRevives + 1) * (maxRescans + 2)) ∧
      ∃ n, ∀ m, n ≤ m → (Supervised.after true barredDisk m).ended ∧
        (Supervised.after true barredDisk m).volume.phase ≠ .bootstrapping ∧
        (Supervised.after true barredDisk m).volume.phase ≠ .live ∧
        (Supervised.after true barredDisk m).volume.phase ≠ .rescanning := by
  have quiet : ∀ n, (barredDisk n).Quiet := by
    intro n
    unfold barredDisk
    split <;> trivial
  have both := full_builds_bounded true barredDisk quiet barredDisk_strict
  exact ⟨by decide, by decide, both.1, both.2 barredDisk_retires⟩

end Goz.Daemon
