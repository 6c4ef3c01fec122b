import Goz.Library.Asking
import Goz.Query.Wildcard

namespace Goz.Query

open Wtf8 Asking

def itemsPerCheck : Nat := 256

/-- One thread's watch on the budget of a query: the items left to its next check. -/
structure Watch where
  left : Nat
  deriving DecidableEq, Repr

namespace Watch

def new : Watch := ⟨1⟩

/-- Counts one item. The budget itself is the answers its checks get: a check that finds it spent,
    by this thread or another, answers yes. -/
def tick (w : Watch) : Asking (Bool × Watch) := do
  if w.left - 1 = 0 then
    let spent ← check
    pure (spent, ⟨if spent then 1 else itemsPerCheck⟩)
  else pure (false, ⟨w.left - 1⟩)

@[simp] theorem quiet_tick (w : Watch) : w.tick.quiet.1 = false := by
  unfold tick
  split <;> rfl

end Watch

namespace Wildcard

def globStepsPerCheck : Nat := 65536

def globCostlySteps : Nat := 4096

def checkMask (w : Wildcard) : Nat := (globStepsPerCheck / (w.tokens.length + 1)).nextPowerOfTwo - 1

def retry (next mask : Nat) (again : Asking Bool) : Asking Bool := do
  let spent ← checkIf (next &&& mask = 0)
  if spent then pure false else again

def globWatched (len mask : Nat) :
    Nat → List GlobTok → List CodePoint → Option (List GlobTok × List CodePoint) → Asking Bool
  | 0, _, _, _ => pure false
  | _ + 1, pat, [], _ => pure (pat.dropWhile (· = .anyRun)).isEmpty
  | fuel + 1, .lit cp :: pat, c :: text, star =>
    if cp = c then globWatched len mask fuel pat text star
    else
      match retreat star with
      | some (sp, st) => retry (len - st.length) mask (globWatched len mask fuel sp st (some (sp, st)))
      | none => pure false
  | fuel + 1, .anyOne :: pat, _ :: text, star => globWatched len mask fuel pat text star
  | fuel + 1, .anyRun :: pat, c :: text, _ =>
    if pat.isEmpty then pure true else globWatched len mask fuel pat (c :: text) (some (pat, c :: text))
  | fuel + 1, [], _ :: _, star =>
    match retreat star with
    | some (sp, st) => retry (len - st.length) mask (globWatched len mask fuel sp st (some (sp, st)))
    | none => pure false

/-- `matches_decoded` within a budget. A match that may take many steps checks it first. -/
def matchesWatched (w : Wildcard) (text : List CodePoint) : Asking Bool := do
  if w.fits text then
    let costly := (text.length - w.minLen) * w.tokens.length ≥ globCostlySteps
    let spent ← checkIf costly
    if spent then pure false
    else globWatched text.length w.checkMask (globSteps w.tokens text) w.tokens text none
  else pure false

@[simp] theorem quiet_retry (next mask : Nat) (again : Asking Bool) : (retry next mask again).quiet = again.quiet := by
  unfold retry
  rw [quiet_bind, quiet_checkIf]
  rfl

theorem quiet_globWatched (len mask fuel : Nat) (pat : List GlobTok) (text : List CodePoint)
    (star : Option (List GlobTok × List CodePoint)) :
    (globWatched len mask fuel pat text star).quiet = globLoop fuel pat text star := by
  induction fuel generalizing pat text star with
  | zero => cases pat <;> cases text <;> rfl
  | succ fuel ih =>
    have backtrack : (match retreat star with
        | some (sp, st) => retry (len - st.length) mask (globWatched len mask fuel sp st (some (sp, st)))
        | none => pure false).quiet =
        match retreat star with
        | some (sp, st) => globLoop fuel sp st (some (sp, st))
        | none => false := by
      cases retreat star with
      | none => rfl
      | some back => rw [quiet_retry, ih]
    rcases text with _ | ⟨c, text⟩
    · cases pat <;> rfl
    rcases pat with _ | ⟨tok, pat⟩
    · exact backtrack
    cases tok with
    | lit cp =>
      rw [globWatched, globLoop]
      by_cases same : cp = c
      · rw [if_pos same, if_pos same]
        exact ih pat text star
      · rw [if_neg same, if_neg same]
        exact backtrack
    | anyOne => exact ih pat text star
    | anyRun =>
      rw [globWatched, globLoop]
      cases pat.isEmpty with
      | true => rfl
      | false => exact ih pat (c :: text) (some (pat, c :: text))

@[simp] theorem quiet_matchesWatched (w : Wildcard) (text : List CodePoint) :
    (w.matchesWatched text).quiet = w.matchesDecoded text := by
  unfold matchesWatched matchesDecoded
  rw [quiet_ite, globMatch]
  cases w.fits text with
  | false => rfl
  | true =>
    rw [if_pos rfl, quiet_bind, quiet_checkIf, Bool.true_and]
    exact quiet_globWatched _ _ _ _ _ _

/-- A wildcard matches the texts its pattern can be split along, after finitely many rounds, and they hold its literals. -/
theorem wildcards_mean_globs (pattern : Bytes) (text : List CodePoint) :
    let w := compile pattern
    globRounds (globSteps w.tokens text) (w.tokens, text, none) = some (w.globMatch text) ∧
    ((w.matchesWatched text).quiet = true ↔ Splits (codePoints pattern) text) ∧
    (Splits (codePoints pattern) text →
      w.leadingLiteral <+: encode text ∧ w.trailingLiteral <:+ encode text ∧
      (∀ lit, w.longestLiteral = some lit → lit <:+: encode text) ∧
      ∀ run ∈ w.separatorFreeLiterals, run <:+: encode text) := by
  intro w
  have ends : globRounds (globSteps w.tokens text) (w.tokens, text, none) = some (w.globMatch text) := by
    have started : Since none w.tokens text := by
      intro sp st at_
      cases at_
    exact globRounds_eq (show stepsLeft w.tokens text none ≤ globSteps w.tokens text from le_rfl) started
  refine ⟨ends, ?_, ?_⟩
  · rw [quiet_matchesWatched, matchesDecoded_iff, glob_compile]
  · intro splits
    have matched := (glob_compile pattern).mpr splits
    refine ⟨leadingLiteral_held matched, trailingLiteral_held matched, ?_, ?_⟩
    · intro lit found
      exact longestLiteral_held found matched
    · intro run mem
      exact (separatorFreeLiterals_held matched run mem).1

/-- `a**?b` matches `axyb`. -/
theorem starred_pattern_matches :
    let w := compile [0x61, 0x2A, 0x2A, 0x3F, 0x62]
    let text := [0x61, 0x78, 0x79, 0x62]
    Splits [0x61, 0x2A, 0x2A, 0x3F, 0x62] text ∧ (w.matchesWatched text).quiet = true ∧ w.leadingLiteral = [0x61] ∧
      w.leadingLiteral <+: encode text := by
  intro w text
  have splits : Splits (codePoints [0x61, 0x2A, 0x2A, 0x3F, 0x62]) text := by
    refine ⟨[[0x61], [0x78], [], [0x79], [0x62]], rfl, ?_⟩
    exact .cons rfl (.cons trivial (.cons trivial (.cons rfl (.cons rfl .nil))))
  obtain ⟨-, matched, held⟩ := wildcards_mean_globs [0x61, 0x2A, 0x2A, 0x3F, 0x62] text
  exact ⟨splits, matched.mpr splits, rfl, (held splits).1⟩

end Wildcard

end Goz.Query
