import Goz.Core.Codec
import Goz.Library.Search
import Mathlib.Data.List.TakeWhile

namespace Goz.Query

open Wtf8 List Option

variable {pat pat' tokens : List GlobTok} {text : List CodePoint} {cps : List CodePoint}

inductive GlobTok
  | lit (cp : CodePoint)
  | anyOne
  | anyRun
  deriving DecidableEq, Repr

/-- The texts a pattern stands for: a literal is itself, `?` one code point and `*` any run of them. -/
def Glob : List GlobTok → List CodePoint → Prop
  | [], text => text = []
  | .lit cp :: pat, text => ∃ rest, text = cp :: rest ∧ Glob pat rest
  | .anyOne :: pat, text => ∃ cp rest, text = cp :: rest ∧ Glob pat rest
  | .anyRun :: pat, text => ∃ run rest, text = run ++ rest ∧ Glob pat rest

/-- A compiled pattern. How often a match checks its budget is no part of it here. -/
structure Wildcard where
  tokens : List GlobTok
  minLen : Nat
  anyRun : Bool
  minLen_eq : minLen = tokens.countP (· ≠ .anyRun)
  anyRun_eq : anyRun = decide (.anyRun ∈ tokens)
  scalar : ∀ cp, .lit cp ∈ tokens → cp ≤ 0x10FFFF

def pushTok (tokens : List GlobTok) (cp : CodePoint) : List GlobTok :=
  if cp = 0x2A then if tokens.getLast? = some .anyRun then tokens else tokens ++ [.anyRun]
  else if cp = 0x3F then tokens ++ [.anyOne]
  else tokens ++ [.lit cp]

theorem scalar_foldl_pushTok {tokens : List GlobTok} (scalars : ∀ cp ∈ cps, cp ≤ 0x10FFFF)
    (before : ∀ cp, .lit cp ∈ tokens → cp ≤ 0x10FFFF) :
    ∀ cp, .lit cp ∈ cps.foldl pushTok tokens → cp ≤ 0x10FFFF := by
  induction cps generalizing tokens with
  | nil => exact before
  | cons next cps ih =>
    apply ih fun cp mem => scalars cp (by simp [mem])
    intro cp mem
    unfold pushTok at mem
    split_ifs at mem
    · exact before cp mem
    · exact before cp (by simpa using mem)
    · exact before cp (by simpa using mem)
    · rcases mem_append.mp mem with old | new
      · exact before cp old
      · simp only [mem_singleton, GlobTok.lit.injEq] at new
        exact new ▸ scalars next (by simp)

namespace Wildcard

def compile (pattern : Bytes) : Wildcard where
  tokens := (codePoints pattern).foldl pushTok []
  minLen := ((codePoints pattern).foldl pushTok []).countP (· ≠ .anyRun)
  anyRun := decide (.anyRun ∈ (codePoints pattern).foldl pushTok [])
  minLen_eq := rfl
  anyRun_eq := rfl
  scalar := scalar_foldl_pushTok (codePoints_le pattern) (by simp)

def retreat : Option (List GlobTok × List CodePoint) → Option (List GlobTok × List CodePoint)
  | some (sp, _ :: st) => some (sp, st)
  | _ => none

/-- The loop of `glob_match`: what is left of the pattern and the text, and of both at the last `*`. -/
def globLoop : Nat → List GlobTok → List CodePoint → Option (List GlobTok × List CodePoint) → Bool
  | 0, _, _, _ => false
  | _ + 1, pat, [], _ => (pat.dropWhile (· = .anyRun)).isEmpty
  | fuel + 1, .lit cp :: pat, c :: text, star =>
    if cp = c then globLoop fuel pat text star
    else
      match retreat star with
      | some (sp, st) => globLoop fuel sp st (some (sp, st))
      | none => false
  | fuel + 1, .anyOne :: pat, _ :: text, star => globLoop fuel pat text star
  | fuel + 1, .anyRun :: pat, c :: text, _ =>
    -- a last star takes all that is left
    if pat.isEmpty then true else globLoop fuel pat (c :: text) (some (pat, c :: text))
  | fuel + 1, [], _ :: _, star =>
    match retreat star with
    | some (sp, st) => globLoop fuel sp st (some (sp, st))
    | none => false

def globSteps (pat : List GlobTok) (text : List CodePoint) : Nat := text.length * (pat.length + 1) + pat.length + 1

def globMatch (w : Wildcard) (text : List CodePoint) : Bool := globLoop (globSteps w.tokens text) w.tokens text none

def fits (w : Wildcard) (text : List CodePoint) : Bool :=
  if w.anyRun then text.length ≥ w.minLen else text.length = w.minLen

def matchesDecoded (w : Wildcard) (text : List CodePoint) : Bool := w.fits text && w.globMatch text

def longestLoop : List GlobTok → Bytes → Bytes → Bytes
  | [], best, run => if run.length > best.length then run else best
  | .lit cp :: toks, best, run => longestLoop toks best (run ++ encodeCodePoint cp)
  | _ :: toks, best, run => longestLoop toks (if run.length > best.length then run else best) []

def longestLiteral (w : Wildcard) : Option Bytes :=
  let best := longestLoop w.tokens [] []
  if best.isEmpty then none else some best

def runsLoop : List GlobTok → Bytes → List Bytes
  | [], run => if run.isEmpty then [] else [run]
  | .lit cp :: toks, run =>
    if cp ≠ 0x5C then runsLoop toks (run ++ encodeCodePoint cp)
    else if run.isEmpty then runsLoop toks [] else run :: runsLoop toks []
  | _ :: toks, run => if run.isEmpty then runsLoop toks [] else run :: runsLoop toks []

def separatorFreeLiterals (w : Wildcard) : List Bytes := runsLoop w.tokens []

def isLit : GlobTok → Bool
  | .lit _ => true
  | _ => false

def litBytes : GlobTok → Bytes
  | .lit cp => encodeCodePoint cp
  | _ => []

def leadingLiteral (w : Wildcard) : Bytes := (w.tokens.takeWhile isLit).flatMap litBytes

def trailingLiteral (w : Wildcard) : Bytes := (w.tokens.reverse.takeWhile isLit).reverse.flatMap litBytes

end Wildcard

theorem glob_append : Glob (pat ++ pat') text ↔ ∃ left right, text = left ++ right ∧ Glob pat left ∧ Glob pat' right := by
  induction pat generalizing text with
  | nil => simp [Glob]
  | cons tok pat ih =>
    cases tok with
    | lit cp =>
      simp only [cons_append, Glob, ih]
      constructor
      · rintro ⟨rest, rfl, left, right, rfl, first, second⟩
        exact ⟨cp :: left, right, rfl, ⟨left, rfl, first⟩, second⟩
      · rintro ⟨_, right, rfl, ⟨left, rfl, first⟩, second⟩
        exact ⟨left ++ right, rfl, left, right, rfl, first, second⟩
    | anyOne =>
      simp only [cons_append, Glob, ih]
      constructor
      · rintro ⟨cp, rest, rfl, left, right, rfl, first, second⟩
        exact ⟨cp :: left, right, rfl, ⟨cp, left, rfl, first⟩, second⟩
      · rintro ⟨_, right, rfl, ⟨cp, left, rfl, first⟩, second⟩
        exact ⟨cp, left ++ right, rfl, left, right, rfl, first, second⟩
    | anyRun =>
      simp only [cons_append, Glob, ih]
      constructor
      · rintro ⟨run, rest, rfl, left, right, rfl, first, second⟩
        exact ⟨run ++ left, right, by simp, ⟨run, left, rfl, first⟩, second⟩
      · rintro ⟨_, right, rfl, ⟨run, left, rfl, first⟩, second⟩
        exact ⟨run, left ++ right, by simp, left, right, rfl, first, second⟩

theorem glob_lits : Glob (cps.map .lit) text ↔ text = cps := by
  induction cps generalizing text with
  | nil => rfl
  | cons cp cps ih => simp [Glob, ih]

theorem glob_nil : Glob pat [] ↔ ∀ tok ∈ pat, tok = .anyRun := by
  induction pat with
  | nil => simp [Glob]
  | cons tok pat ih => cases tok <;> simp [Glob, ih]

theorem Glob.anyRun_iff : Glob (.anyRun :: pat) text ↔ ∃ rest, rest <:+ text ∧ Glob pat rest := by
  constructor
  · rintro ⟨run, rest, rfl, matched⟩
    exact ⟨rest, ⟨run, rfl⟩, matched⟩
  · rintro ⟨rest, ⟨run, rfl⟩, matched⟩
    exact ⟨run, rest, rfl, matched⟩

theorem Glob.length (matched : Glob pat text) : pat.countP (· ≠ .anyRun) ≤ text.length := by
  induction pat generalizing text with
  | nil => simp
  | cons tok pat ih =>
    cases tok with
    | lit cp =>
      obtain ⟨rest, rfl, later⟩ := matched
      simpa using ih later
    | anyOne =>
      obtain ⟨cp, rest, rfl, later⟩ := matched
      simpa using ih later
    | anyRun =>
      obtain ⟨run, rest, rfl, later⟩ := matched
      have bound := ih later
      rw [countP_cons_of_neg (by simp), length_append]
      omega

theorem Glob.length_eq (matched : Glob pat text) (starless : .anyRun ∉ pat) : text.length = pat.length := by
  induction pat generalizing text with
  | nil => simp [show text = [] from matched]
  | cons tok pat ih =>
    simp only [mem_cons, not_or] at starless
    cases tok with
    | lit cp =>
      obtain ⟨rest, rfl, later⟩ := matched
      simp [ih later starless.2]
    | anyOne =>
      obtain ⟨cp, rest, rfl, later⟩ := matched
      simp [ih later starless.2]
    | anyRun => exact absurd rfl starless.1

namespace Wildcard

variable {star : Option (List GlobTok × List CodePoint)}

section Loop

variable {cp : CodePoint} {fuel : Nat} {tok : GlobTok}

/-- What is left is what the last star stood before, after as many tokens as code points, none of
    them a star. -/
def Since (star : Option (List GlobTok × List CodePoint)) (pat : List GlobTok) (text : List CodePoint) : Prop :=
  ∀ sp st, star = some (sp, st) → ∃ passed taken, sp = passed ++ pat ∧ st = taken ++ text ∧
    taken.length = passed.length ∧ .anyRun ∉ passed

def Retries (star : Option (List GlobTok × List CodePoint)) : Prop :=
  ∃ sp st rest, star = some (sp, st) ∧ rest <:+ st ∧ rest ≠ st ∧ Glob sp rest

theorem Since.step (since : Since star (tok :: pat) (cp :: text)) (plain : tok ≠ .anyRun) : Since star pat text := by
  intro sp st at_
  obtain ⟨passed, taken, rfl, rfl, same, starless⟩ := since sp st at_
  refine ⟨passed ++ [tok], taken ++ [cp], by simp, by simp, by simp [same], ?_⟩
  simp [starless, Ne.symm plain]

theorem since_self (pat : List GlobTok) (text : List CodePoint) : Since (some (pat, text)) pat text := by
  intro sp st at_
  obtain ⟨rfl, rfl⟩ := Prod.mk.inj (some.inj at_)
  exact ⟨[], [], rfl, rfl, rfl, by simp⟩

theorem Since.not_retries_nil (since : Since star pat []) : ¬ Retries star := by
  rintro ⟨sp, st, rest, at_, suffix, shorter, matched⟩
  obtain ⟨passed, taken, rfl, rfl, same, starless⟩ := since sp st at_
  rw [append_nil] at suffix shorter
  obtain ⟨left, right, rfl, first, -⟩ := glob_append.mp matched
  have exact_ := first.length_eq starless
  have le := suffix.length_le
  rw [length_append] at le
  exact shorter (suffix.eq_of_length_le (by rw [length_append]; omega))

theorem Since.retries_anyRun (since : Since star (.anyRun :: pat) text)
    (retries : Retries star) : Glob (.anyRun :: pat) text := by
  obtain ⟨sp, st, rest, at_, suffix, -, matched⟩ := retries
  obtain ⟨passed, taken, rfl, rfl, same, starless⟩ := since sp st at_
  obtain ⟨left, right, rfl, first, second⟩ := glob_append.mp matched
  have exact_ := first.length_eq starless
  obtain ⟨tail, tailEnds, later⟩ := Glob.anyRun_iff.mp second
  refine Glob.anyRun_iff.mpr ⟨tail, tailEnds.trans ?_, later⟩
  have le := suffix.length_le
  simp only [length_append] at le
  exact suffix_of_suffix_length_le ((suffix_append left right).trans suffix) (suffix_append taken text)
    (by omega)

theorem retries_cons (sp : List GlobTok) (cp : CodePoint) (st : List CodePoint) :
    Retries (some (sp, cp :: st)) ↔ Glob sp st ∨ Retries (some (sp, st)) := by
  constructor
  · rintro ⟨_, _, rest, at_, suffix, shorter, matched⟩
    obtain ⟨rfl, rfl⟩ := Prod.mk.inj (some.inj at_)
    rcases suffix_cons_iff.mp suffix with same | suffix
    · exact absurd same shorter
    · by_cases whole : rest = st
      · exact .inl (whole ▸ matched)
      · exact .inr ⟨_, _, rest, rfl, suffix, whole, matched⟩
  · rintro (matched | ⟨_, _, rest, at_, suffix, -, matched⟩)
    · exact ⟨_, _, st, rfl, suffix_cons cp st, by simp, matched⟩
    · obtain ⟨rfl, rfl⟩ := Prod.mk.inj (some.inj at_)
      refine ⟨_, _, rest, rfl, suffix.trans (suffix_cons cp _), fun same => ?_, matched⟩
      have le := suffix.length_le
      simp [same] at le

theorem retries_none : ¬ Retries none := by
  rintro ⟨_, _, _, at_, -⟩
  cases at_

def stepsLeft (pat : List GlobTok) (text : List CodePoint) : Option (List GlobTok × List CodePoint) → Nat
  | none => text.length * (pat.length + 1) + pat.length + 1
  | some (sp, st) => st.length * (sp.length + 1) + pat.length + 1

def Decides (fuel : Nat) : Prop :=
  ∀ pat text star, stepsLeft pat text star ≤ fuel → Since star pat text →
    (globLoop fuel pat text star = true ↔ Glob pat text ∨ Retries star)

theorem Decides.backtrack (decides : Decides fuel) (enough : stepsLeft pat (cp :: text) star ≤ fuel + 1) (since : Since star pat (cp :: text)) :
    (match retreat star with
      | some (sp, st) => globLoop fuel sp st (some (sp, st))
      | none => false) = true ↔ Retries star := by
  rcases star with _ | ⟨sp, _ | ⟨first, st⟩⟩
  · simp [retreat, retries_none]
  · obtain ⟨passed, taken, -, empty, -, -⟩ := since sp [] rfl
    simp at empty
  · simp only [retreat]
    rw [decides sp st _ _ (since_self sp st), retries_cons]
    simp only [stepsLeft, length_cons, Nat.succ_mul] at enough ⊢
    omega

theorem stepsLeft_step
    (enough : stepsLeft (tok :: pat) (cp :: text) star ≤ fuel + 1) : stepsLeft pat text star ≤ fuel := by
  rcases star with _ | ⟨sp, st⟩
  · simp only [stepsLeft, length_cons, Nat.succ_mul, Nat.mul_succ] at enough ⊢
    omega
  · simp only [stepsLeft, length_cons] at enough ⊢
    omega

theorem stepsLeft_star
    (enough : stepsLeft (.anyRun :: pat) text star ≤ fuel + 1) (since : Since star (.anyRun :: pat) text) :
    stepsLeft pat text (some (pat, text)) ≤ fuel := by
  rcases star with _ | ⟨sp, st⟩
  · simp only [stepsLeft, length_cons, Nat.mul_succ] at enough ⊢
    omega
  · obtain ⟨passed, taken, rfl, rfl, -, -⟩ := since sp st rfl
    simp only [stepsLeft, length_cons, length_append] at enough ⊢
    have grown : text.length * (pat.length + 1) ≤
        (taken.length + text.length) * (passed.length + (pat.length + 1) + 1) := Nat.mul_le_mul (by omega) (by omega)
    omega

theorem globLoop_decides (fuel : Nat) : Decides fuel := by
  induction fuel with
  | zero =>
    intro pat text star enough
    exfalso
    rcases star with _ | ⟨sp, st⟩ <;> simp [stepsLeft] at enough
  | succ fuel decides =>
    intro pat text star enough since
    rcases text with _ | ⟨c, text⟩
    · simp only [globLoop, List.isEmpty_iff, since.not_retries_nil, or_false, glob_nil]
      simp [dropWhile_eq_nil_iff]
    rcases pat with _ | ⟨tok, pat⟩
    · rw [globLoop, decides.backtrack enough since]
      simp [Glob]
    cases tok with
    | lit cp =>
      rw [globLoop]
      by_cases same : cp = c
      · subst same
        rw [if_pos rfl, decides pat text star (stepsLeft_step enough) (since.step (by simp))]
        simp [Glob]
      · rw [if_neg same, decides.backtrack enough since]
        simp [Glob, Ne.symm same]
    | anyOne =>
      rw [globLoop, decides pat text star (stepsLeft_step enough) (since.step (by simp))]
      simp [Glob]
    | anyRun =>
      rw [globLoop]
      have covered : Glob (.anyRun :: pat) (c :: text) ∨ Retries star ↔ Glob (.anyRun :: pat) (c :: text) :=
        or_iff_left_of_imp since.retries_anyRun
      rw [covered]
      by_cases last : pat.isEmpty
      · rw [if_pos last, isEmpty_iff.mp last]
        simp only [true_iff]
        exact Glob.anyRun_iff.mpr ⟨[], nil_suffix, rfl⟩
      · rw [if_neg last, decides pat _ _ (stepsLeft_star enough since) (since_self pat _), Glob.anyRun_iff]
        constructor
        · rintro (matched | ⟨_, _, rest, at_, suffix, -, matched⟩)
          · exact ⟨_, suffix_rfl, matched⟩
          · obtain ⟨rfl, rfl⟩ := Prod.mk.inj (some.inj at_)
            exact ⟨rest, suffix, matched⟩
        · rintro ⟨rest, suffix, matched⟩
          by_cases whole : rest = c :: text
          · exact .inl (whole ▸ matched)
          · exact .inr ⟨_, _, rest, rfl, suffix, whole, matched⟩

theorem globMatch_iff (w : Wildcard) (text : List CodePoint) : w.globMatch text = true ↔ Glob w.tokens text := by
  have started : Since none w.tokens text := fun _ _ at_ => by cases at_
  have steps : stepsLeft w.tokens text none ≤ globSteps w.tokens text := le_rfl
  rw [globMatch, globLoop_decides _ _ _ none steps started]
  simp [retries_none]

theorem matchesDecoded_iff (w : Wildcard) (text : List CodePoint) : w.matchesDecoded text = true ↔ Glob w.tokens text := by
  rw [matchesDecoded, Bool.and_eq_true, globMatch_iff, and_iff_right_iff_imp]
  intro matched
  unfold fits
  split
  case isTrue =>
    rw [w.minLen_eq]
    simpa using matched.length
  case isFalse starless =>
    rw [w.anyRun_eq, decide_eq_true_eq] at starless
    have all : w.tokens.countP (· ≠ .anyRun) = w.tokens.length := by
      rw [countP_eq_length]
      intro tok mem
      simpa using fun same : tok = .anyRun => starless (same ▸ mem)
    rw [w.minLen_eq, all]
    simpa using matched.length_eq starless

end Loop

section Rounds

variable {star' : Option (List GlobTok × List CodePoint)} {text' : List CodePoint}

abbrev GlobState := List GlobTok × List CodePoint × Option (List GlobTok × List CodePoint)

def globStep : GlobState → Bool ⊕ GlobState
  | (pat, [], _) => .inl (pat.dropWhile (· = .anyRun)).isEmpty
  | (.lit cp :: pat, c :: text, star) =>
    if cp = c then .inr (pat, text, star) else (retreat star).elim (.inl false) fun back => .inr (back.1, back.2, some back)
  | (.anyOne :: pat, _ :: text, star) => .inr (pat, text, star)
  | (.anyRun :: pat, c :: text, _) => if pat.isEmpty then .inl true else .inr (pat, c :: text, some (pat, c :: text))
  | ([], _ :: _, star) => (retreat star).elim (.inl false) fun back => .inr (back.1, back.2, some back)

def globRounds : Nat → GlobState → Option Bool
  | 0, _ => none
  | rounds + 1, state => (globStep state).elim some (globRounds rounds)

theorem globLoop_succ (fuel : Nat) (pat : List GlobTok) (text : List CodePoint) (star : Option (List GlobTok × List CodePoint)) :
    globLoop (fuel + 1) pat text star = (globStep (pat, text, star)).elim id fun next => globLoop fuel next.1 next.2.1 next.2.2 := by
  have back : (match retreat star with
      | some (sp, st) => globLoop fuel sp st (some (sp, st))
      | none => false) = ((retreat star).elim (.inl false) fun back => .inr (back.1, back.2, some back) : Bool ⊕ GlobState).elim id
        fun next => globLoop fuel next.1 next.2.1 next.2.2 := by
    cases retreat star <;> rfl
  rcases text with _ | ⟨c, text⟩
  · cases pat <;> rfl
  rcases pat with _ | ⟨tok, pat⟩
  · exact back
  cases tok with
  | lit cp =>
    rw [globLoop, globStep, back]
    split <;> rfl
  | anyOne => rfl
  | anyRun =>
    rw [globLoop, globStep]
    split <;> rfl

theorem stepsLeft_pos (pat : List GlobTok) (text : List CodePoint) (star : Option (List GlobTok × List CodePoint)) :
    ∃ fuel, stepsLeft pat text star = fuel + 1 := by
  cases star with
  | none => exact ⟨_, rfl⟩
  | some back => exact ⟨_, rfl⟩

theorem stepsLeft_retreat
    (step : ((retreat star).elim (.inl false) fun back => .inr (back.1, back.2, some back) : Bool ⊕ GlobState) =
      .inr (pat', text', star')) : stepsLeft pat' text' star' < stepsLeft pat text star ∧ Since star' pat' text' := by
  rcases star with _ | ⟨sp, _ | ⟨first, st⟩⟩
  · cases step
  · cases step
  · obtain ⟨rfl, rfl, rfl⟩ : sp = pat' ∧ st = text' ∧ some (sp, st) = star' := by simpa [retreat] using step
    refine ⟨?_, since_self sp st⟩
    simp only [stepsLeft, length_cons, Nat.succ_mul]
    omega

theorem stepsLeft_globStep
    (since : Since star pat text) (step : globStep (pat, text, star) = .inr (pat', text', star')) :
    stepsLeft pat' text' star' < stepsLeft pat text star ∧ Since star' pat' text' := by
  obtain ⟨fuel, now⟩ := stepsLeft_pos pat text star
  rcases text with _ | ⟨c, text⟩
  · simp [globStep] at step
  rcases pat with _ | ⟨tok, pat⟩
  · exact stepsLeft_retreat step
  rw [now]
  cases tok with
  | lit cp =>
    rw [globStep] at step
    split at step
    · obtain ⟨rfl, rfl, rfl⟩ : pat = pat' ∧ text = text' ∧ star = star' := by simpa using step
      exact ⟨Nat.lt_succ_of_le (stepsLeft_step now.le), since.step (by simp)⟩
    · rw [← now]
      exact stepsLeft_retreat step
  | anyOne =>
    obtain ⟨rfl, rfl, rfl⟩ : pat = pat' ∧ text = text' ∧ star = star' := by simpa [globStep] using step
    exact ⟨Nat.lt_succ_of_le (stepsLeft_step now.le), since.step (by simp)⟩
  | anyRun =>
    rw [globStep] at step
    split at step
    · cases step
    · obtain ⟨rfl, rfl, rfl⟩ : pat = pat' ∧ c :: text = text' ∧ some (pat, c :: text) = star' := by simpa using step
      exact ⟨Nat.lt_succ_of_le (stepsLeft_star now.le since), since_self pat _⟩

theorem globRounds_eq {rounds : Nat}
    (enough : stepsLeft pat text star ≤ rounds) (since : Since star pat text) :
    globRounds rounds (pat, text, star) = some (globLoop rounds pat text star) := by
  induction rounds generalizing pat text star with
  | zero =>
    rcases star with _ | ⟨sp, st⟩ <;> simp [stepsLeft] at enough
  | succ rounds ih =>
    rw [globRounds, globLoop_succ]
    cases step : globStep (pat, text, star) with
    | inl answer => rfl
    | inr next =>
      obtain ⟨pat', text', star'⟩ := next
      obtain ⟨fewer, later⟩ := stepsLeft_globStep since step
      exact ih (by omega) later

end Rounds

section Literals

variable {bytes : Bytes} {w : Wildcard} {seen rest : List GlobTok}

def LitRun (tokens : List GlobTok) (bytes : Bytes) : Prop :=
  ∃ cps : List CodePoint, cps.map GlobTok.lit <:+: tokens ∧ bytes = encode cps

theorem LitRun.held (run : LitRun tokens bytes) (matched : Glob tokens text) : bytes <:+: encode text := by
  obtain ⟨cps, ⟨before, after, rfl⟩, rfl⟩ := run
  obtain ⟨front, last, rfl, first, -⟩ := glob_append.mp matched
  obtain ⟨left, mid, rfl, -, middle⟩ := glob_append.mp first
  obtain rfl := glob_lits.mp middle
  exact ⟨encode left, encode last, by simp [encode_append]⟩

theorem encode_concat (cps : List CodePoint) (cp : CodePoint) : encode (cps ++ [cp]) = encode cps ++ encodeCodePoint cp := by
  simp [encode]

theorem lits_concat (here : cps.map GlobTok.lit <:+ seen) (cp : CodePoint) :
    (cps ++ [cp]).map GlobTok.lit <:+ seen ++ [.lit cp] := by
  obtain ⟨before, rfl⟩ := here
  exact ⟨before, by simp⟩

theorem longestLoop_litRun {best : Bytes}
    (here : cps.map GlobTok.lit <:+ seen) (held : LitRun (seen ++ rest) best) :
    LitRun (seen ++ rest) (longestLoop rest best (encode cps)) := by
  induction rest generalizing seen cps best with
  | nil =>
    rw [longestLoop]
    split
    · exact ⟨cps, by simpa using here.isInfix, rfl⟩
    · exact held
  | cons tok rest ih =>
    have shift : seen ++ tok :: rest = (seen ++ [tok]) ++ rest := by simp
    have ran : LitRun (seen ++ tok :: rest) (if (encode cps).length > best.length then encode cps else best) := by
      split
      · exact ⟨cps, here.isInfix.trans (prefix_append seen _).isInfix, rfl⟩
      · exact held
    rw [shift] at ran held ⊢
    cases tok with
    | lit cp =>
      rw [longestLoop, ← encode_concat]
      exact ih (lits_concat here cp) held
    | anyOne =>
      have fresh : ([] : List CodePoint).map GlobTok.lit <:+ seen ++ [.anyOne] := nil_suffix
      exact ih fresh ran
    | anyRun =>
      have fresh : ([] : List CodePoint).map GlobTok.lit <:+ seen ++ [.anyRun] := nil_suffix
      exact ih fresh ran

theorem longestLiteral_held {lit : Bytes} (found : w.longestLiteral = some lit)
    (matched : Glob w.tokens text) : lit <:+: encode text := by
  unfold longestLiteral at found
  dsimp only at found
  split at found
  case isTrue => cases found
  case isFalse =>
    obtain rfl := some.inj found
    have run : LitRun ([] ++ w.tokens) (longestLoop w.tokens [] (encode [])) :=
      longestLoop_litRun nil_suffix ⟨[], nil_infix, rfl⟩
    exact run.held matched

theorem separator_not_mem {cp : Nat} (scalar : cp ≤ 0x10FFFF) (other : cp ≠ 0x5C) : 0x5C ∉ encodeCodePoint cp := by
  have away : ∀ n : Nat, n < 256 → n ≠ 0x5C → UInt8.ofNat n ≠ 0x5C := by
    intro n small ne same
    have value := congrArg UInt8.toNat same
    rw [toNat_byte small] at value
    exact ne value
  intro mem
  unfold encodeCodePoint at mem
  by_cases one : cp < 0x80
  · rw [if_pos one, mem_singleton] at mem
    exact away cp (by omega) other mem.symm
  rw [if_neg one] at mem
  by_cases two : cp < 0x800
  · rw [if_pos two] at mem
    simp only [mem_cons, not_mem_nil, or_false] at mem
    rcases mem with same | same
    all_goals exact away _ (by omega) (by omega) same.symm
  rw [if_neg two] at mem
  by_cases three : cp < 0x10000
  · rw [if_pos three] at mem
    simp only [mem_cons, not_mem_nil, or_false] at mem
    rcases mem with same | same | same
    all_goals exact away _ (by omega) (by omega) same.symm
  · rw [if_neg three] at mem
    simp only [mem_cons, not_mem_nil, or_false] at mem
    rcases mem with same | same | same | same
    all_goals exact away _ (by omega) (by omega) same.symm

def SepFree (tokens : List GlobTok) (bytes : Bytes) : Prop :=
  ∃ cps : List CodePoint, cps.map GlobTok.lit <:+: tokens ∧ 0x5C ∉ cps ∧ bytes = encode cps

theorem runsLoop_sepFree (here : cps.map GlobTok.lit <:+ seen)
    (plain : 0x5C ∉ cps) : ∀ bytes ∈ runsLoop rest (encode cps), SepFree (seen ++ rest) bytes := by
  induction rest generalizing seen cps with
  | nil =>
    rw [runsLoop]
    split
    · simp
    · intro bytes mem
      rw [mem_singleton.mp mem, append_nil]
      exact ⟨cps, here.isInfix, plain, rfl⟩
  | cons tok rest ih =>
    have shift : seen ++ tok :: rest = (seen ++ [tok]) ++ rest := by simp
    have this : SepFree (seen ++ tok :: rest) (encode cps) :=
      ⟨cps, here.isInfix.trans (prefix_append seen _).isInfix, plain, rfl⟩
    have fresh : ([] : List CodePoint).map GlobTok.lit <:+ seen ++ [tok] := nil_suffix
    have later := ih fresh (by simp)
    rw [shift] at this ⊢
    have ended : ∀ bytes ∈ (if (encode cps).isEmpty then runsLoop rest [] else encode cps :: runsLoop rest []),
        SepFree (seen ++ [tok] ++ rest) bytes := by
      split
      · exact later
      · intro bytes mem
        rcases mem_cons.mp mem with rfl | mem
        · exact this
        · exact later bytes mem
    cases tok with
    | lit cp =>
      rw [runsLoop]
      by_cases other : cp ≠ 0x5C
      · rw [if_pos other, ← encode_concat]
        exact ih (lits_concat here cp) (by simp [plain, Ne.symm other])
      · rw [if_neg other]
        exact ended
    | anyOne => exact ended
    | anyRun => exact ended

theorem separatorFreeLiterals_held (matched : Glob w.tokens text) :
    ∀ piece ∈ w.separatorFreeLiterals, piece <:+: encode text ∧ 0x5C ∉ piece := by
  intro piece mem
  have start : ([] : List CodePoint).map GlobTok.lit <:+ [] := nil_suffix
  have run : SepFree ([] ++ w.tokens) piece := runsLoop_sepFree start (by simp) piece mem
  obtain ⟨cps, inside, plain, rfl⟩ := run
  refine ⟨LitRun.held ⟨cps, inside, rfl⟩ matched, ?_⟩
  simp only [encode, mem_flatMap, not_exists, not_and]
  intro cp among
  have literal : GlobTok.lit cp ∈ w.tokens := inside.subset (mem_map_of_mem among)
  exact separator_not_mem (w.scalar cp literal) fun same => plain (same ▸ among)

theorem litBytes_lits (toks : List GlobTok) (lits : ∀ tok ∈ toks, isLit tok) :
    ∃ cps : List CodePoint, toks = cps.map .lit ∧ toks.flatMap litBytes = encode cps := by
  induction toks with
  | nil => exact ⟨[], rfl, rfl⟩
  | cons tok toks ih =>
    obtain ⟨cps, same, bytes⟩ := ih fun other mem => lits other (by simp [mem])
    cases tok with
    | lit cp => exact ⟨cp :: cps, by simp [same], by simp [bytes, litBytes, encode]⟩
    | anyOne => simpa [isLit] using lits .anyOne (by simp)
    | anyRun => simpa [isLit] using lits .anyRun (by simp)

theorem leadingLiteral_held (matched : Glob w.tokens text) : w.leadingLiteral <+: encode text := by
  obtain ⟨cps, same, bytes⟩ := litBytes_lits (w.tokens.takeWhile isLit) fun tok => mem_takeWhile_imp
  rw [← takeWhile_append_dropWhile (p := isLit) (l := w.tokens), same] at matched
  obtain ⟨left, right, rfl, first, -⟩ := glob_append.mp matched
  obtain rfl := glob_lits.mp first
  rw [leadingLiteral, bytes, encode_append]
  exact prefix_append _ _

theorem trailingLiteral_held (matched : Glob w.tokens text) : w.trailingLiteral <:+ encode text := by
  obtain ⟨cps, same, bytes⟩ := litBytes_lits (w.tokens.reverse.takeWhile isLit).reverse fun tok mem =>
    mem_takeWhile_imp (mem_reverse.mp mem)
  have split : w.tokens = (w.tokens.reverse.dropWhile isLit).reverse ++ (w.tokens.reverse.takeWhile isLit).reverse := by
    rw [← reverse_append, takeWhile_append_dropWhile, reverse_reverse]
  rw [split, same] at matched
  obtain ⟨left, right, rfl, -, last⟩ := glob_append.mp matched
  obtain rfl := glob_lits.mp last
  rw [trailingLiteral, bytes, encode_append]
  exact suffix_append _ _

end Literals

def Stands (cp : CodePoint) (part : List CodePoint) : Prop :=
  if cp = 0x2A then True else if cp = 0x3F then part.length = 1 else part = [cp]

def Splits (pattern text : List CodePoint) : Prop := ∃ parts : List (List CodePoint), text = parts.flatten ∧ Forall₂ Stands pattern parts

theorem glob_singleton (tok : GlobTok) : Glob [tok] text ↔
    match tok with | .lit cp => text = [cp] | .anyOne => text.length = 1 | .anyRun => True := by
  cases tok with
  | lit cp => simp [Glob]
  | anyOne => simp [Glob, length_eq_one_iff]
  | anyRun => simp [Glob]

theorem glob_pushTok (cp : CodePoint) :
    Glob (pushTok tokens cp) text ↔ ∃ left part, text = left ++ part ∧ Glob tokens left ∧ Stands cp part := by
  unfold pushTok Stands
  split_ifs with star collapsed one
  · obtain ⟨front, rfl⟩ := getLast?_eq_some_iff.mp collapsed
    constructor
    · intro matched
      exact ⟨text, [], by simp, matched, trivial⟩
    · rintro ⟨left, part, rfl, matched, -⟩
      obtain ⟨first, run, rfl, before, -⟩ := glob_append.mp matched
      exact glob_append.mpr ⟨first, run ++ part, by simp, before, (glob_singleton .anyRun).mpr trivial⟩
  · rw [glob_append]
    simp only [glob_singleton]
  · rw [glob_append]
    simp only [glob_singleton]
  · rw [glob_append]
    simp only [glob_singleton]

theorem glob_foldl_pushTok (pattern : List CodePoint) :
    Glob (pattern.foldl pushTok tokens) text ↔ ∃ left right, text = left ++ right ∧ Glob tokens left ∧ Splits pattern right := by
  induction pattern generalizing tokens with
  | nil =>
    constructor
    · intro matched
      exact ⟨text, [], by simp, matched, [], rfl, .nil⟩
    · rintro ⟨left, right, rfl, matched, parts, rfl, stands⟩
      cases stands
      simpa using matched
  | cons cp pattern ih =>
    rw [foldl_cons, ih]
    constructor
    · rintro ⟨_, right, rfl, matched, parts, rfl, stands⟩
      obtain ⟨left, part, rfl, before, here⟩ := (glob_pushTok cp).mp matched
      exact ⟨left, part ++ parts.flatten, by simp, before, part :: parts, by simp, .cons here stands⟩
    · rintro ⟨left, right, rfl, matched, parts, rfl, stands⟩
      cases stands with
      | @cons _ part _ parts here stands =>
        exact ⟨left ++ part, parts.flatten, by simp, (glob_pushTok cp).mpr ⟨left, part, rfl, matched, here⟩, parts, rfl, stands⟩

theorem glob_compile (pattern : Bytes) : Glob (compile pattern).tokens text ↔ Splits (codePoints pattern) text := by
  refine (glob_foldl_pushTok (codePoints pattern)).trans ?_
  constructor
  · rintro ⟨left, right, rfl, nothing, splits⟩
    obtain rfl : left = [] := nothing
    exact splits
  · intro splits
    exact ⟨[], text, rfl, rfl, splits⟩

end Wildcard

end Goz.Query
