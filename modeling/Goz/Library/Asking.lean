import Mathlib.Tactic

universe u

/-- A computation that may ask whether to stop, and goes on by the answer. -/
inductive Asking (α : Type u)
  | done (value : α)
  | ask (next : Bool → Asking α)

namespace Asking

open List

variable {α β σ : Type u}

def bind : Asking α → (α → Asking β) → Asking β
  | done value, next => next value
  | ask rest, next => ask fun answer => (rest answer).bind next

instance : Monad Asking where
  pure := done
  bind := bind

instance : LawfulMonad Asking :=
  .mk' _
    (fun prog => by
      show prog.bind done = prog
      induction prog with
      | done value => rfl
      | ask next ih => exact congrArg ask (funext ih))
    (fun _ _ => rfl)
    (fun prog f g => by
      show (prog.bind f).bind g = prog.bind fun value => (f value).bind g
      induction prog with
      | done value => rfl
      | ask next ih => exact congrArg ask (funext ih))

def check : Asking Bool := ask done

def checkIf (due : Bool) : Asking Bool := if due then check else pure false

/-- The value if every answer is no. -/
def quiet : Asking α → α
  | done value => value
  | ask next => (next false).quiet

/-- The values of programs run side by side, and whether one of them heard yes: any of them that has
    not ended may be the next to ask. -/
inductive Par : List (Asking α) → List α → Bool → Prop
  | done (values : List α) : Par (values.map .done) values false
  | ask {front back : List (Asking α)} {next : Bool → Asking α} (answer : Bool) {values : List α} {heard : Bool}
      (rest : Par (front ++ next answer :: back) values heard) : Par (front ++ .ask next :: back) values (answer || heard)

/-- Whatever the order of the questions, programs that hear only no end as they would alone. -/
theorem Par.eq_quiet {progs : List (Asking α)} {values : List α} (ran : Par progs values false) :
    values = progs.map quiet := by
  generalize silent : false = heard at ran
  induction ran with
  | done values =>
    rw [map_map]
    exact (map_id values).symm
  | ask answer rest ih =>
    obtain ⟨rfl, rfl⟩ := Bool.or_eq_false_iff.mp silent.symm
    rw [ih rfl, map_append, map_append, map_cons, map_cons, quiet]

@[simp] theorem quiet_pure (value : α) : (pure value : Asking α).quiet = value := rfl

@[simp] theorem quiet_checkIf (due : Bool) : (checkIf due).quiet = false := by
  cases due <;> rfl

@[simp] theorem quiet_bind (prog : Asking α) (next : α → Asking β) : (prog >>= next).quiet = (next prog.quiet).quiet := by
  show (prog.bind next).quiet = _
  induction prog with
  | done value => rfl
  | ask rest ih => exact ih false

@[simp] theorem quiet_map (f : α → β) (prog : Asking α) : (f <$> prog).quiet = f prog.quiet := by
  rw [← bind_pure_comp, quiet_bind]
  rfl

@[simp] theorem quiet_ite {p : Prop} [Decidable p] (yes no : Asking α) :
    (if p then yes else no).quiet = if p then yes.quiet else no.quiet := by
  split <;> rfl

@[simp] theorem quiet_foldlM (step : σ → β → Asking σ) (start : σ) (list : List β) :
    (list.foldlM step start).quiet = list.foldl (fun s b => (step s b).quiet) start := by
  induction list generalizing start with
  | nil => rfl
  | cons b rest ih =>
    rw [foldlM_cons, quiet_bind, ih, foldl_cons]

@[simp] theorem quiet_allM (test : β → Asking Bool) (list : List β) :
    (list.allM test).quiet = list.all fun b => (test b).quiet := by
  induction list with
  | nil => rfl
  | cons b rest ih =>
    rw [List.allM, quiet_bind, all_cons]
    cases (test b).quiet with
    | true => simpa using ih
    | false => rfl

@[simp] theorem quiet_mapM (f : β → Asking α) (list : List β) : (list.mapM f).quiet = list.map fun b => (f b).quiet := by
  induction list with
  | nil => rfl
  | cons b rest ih =>
    rw [mapM_cons, quiet_bind, quiet_bind, ih]
    rfl

end Asking
