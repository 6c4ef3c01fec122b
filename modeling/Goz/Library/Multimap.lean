import Mathlib.Data.List.Basic
import Mathlib.Data.List.Nodup
import Mathlib.Logic.Function.Basic
import Mathlib.Tactic

namespace Multimap

open Function List

variable {ι κ : Type*} [DecidableEq ι] [DecidableEq κ]

def insert (m : κ → Option (List ι)) (k : κ) (x : ι) : κ → Option (List ι) :=
  update m k (some (if x ∈ (m k).getD [] then (m k).getD [] else (m k).getD [] ++ [x]))

def without (slot : Option (List ι)) (x : ι) : Option (List ι) :=
  slot.bind fun items => if (items.filter (· ≠ x)).isEmpty then none else some (items.filter (· ≠ x))

def erase (m : κ → Option (List ι)) (k : κ) (x : ι) : κ → Option (List ι) :=
  update m k (without (m k) x)

/-- Each held item lies once in the slot of its key, and the slots hold nothing else. -/
structure Exact (m : κ → Option (List ι)) (key : ι → κ) (held : ι → Prop) : Prop where
  nonempty : ∀ k, m k ≠ some []
  nodup : ∀ k, ((m k).getD []).Nodup
  mem : ∀ k x, x ∈ (m k).getD [] ↔ held x ∧ key x = k

variable {m : κ → Option (List ι)} {key : ι → κ} {held : ι → Prop}

omit [DecidableEq ι] [DecidableEq κ] in
theorem Exact.congr {key' : ι → κ} {held' : ι → Prop} (exact_ : Exact m key held)
    (same : ∀ x, held' x ↔ held x) (keys : ∀ x, held x → key' x = key x) : Exact m key' held' where
  nonempty := exact_.nonempty
  nodup := exact_.nodup
  mem k x := by
    rw [exact_.mem k x, same x]
    refine and_congr_right fun inside => ?_
    rw [keys x inside]

theorem Exact.insert (exact_ : Exact m key held) {x : ι} (out : ¬ held x) :
    Exact (insert m (key x) x) key (fun y => held y ∨ y = x) := by
  have absent : x ∉ (m (key x)).getD [] := fun mem => out ((exact_.mem _ _).mp mem).1
  have here : Multimap.insert m (key x) x (key x) = some ((m (key x)).getD [] ++ [x]) := by
    simp [Multimap.insert, absent]
  have away : ∀ k, k ≠ key x → Multimap.insert m (key x) x k = m k := fun k ne => by
    simp [Multimap.insert, ne]
  refine ⟨fun k => ?_, fun k => ?_, fun k y => ?_⟩
  · by_cases at_ : k = key x
    · simp [at_, here]
    · rw [away k at_]
      exact exact_.nonempty k
  · by_cases at_ : k = key x
    · rw [at_, here, Option.getD_some, nodup_append]
      refine ⟨exact_.nodup _, nodup_singleton x, fun a inside b last same => ?_⟩
      rw [same, mem_singleton.mp last] at inside
      exact absent inside
    · rw [away k at_]
      exact exact_.nodup k
  · by_cases at_ : k = key x
    · rw [at_, here, Option.getD_some, mem_append, exact_.mem, mem_singleton]
      constructor
      · rintro (⟨inside, same⟩ | rfl)
        · exact ⟨.inl inside, same⟩
        · exact ⟨.inr rfl, rfl⟩
      · rintro ⟨inside | rfl, same⟩
        · exact .inl ⟨inside, same⟩
        · exact .inr rfl
    · rw [away k at_, exact_.mem]
      constructor
      · exact fun ⟨inside, same⟩ => ⟨.inl inside, same⟩
      · rintro ⟨inside | rfl, same⟩
        · exact ⟨inside, same⟩
        · exact absurd same.symm at_

omit [DecidableEq κ] in
theorem without_getD (slot : Option (List ι)) (x : ι) : (without slot x).getD [] = (slot.getD []).filter (· ≠ x) := by
  cases slot with
  | none => rfl
  | some items =>
    simp only [without, Option.bind_some, Option.getD_some]
    split
    case isTrue empty => exact (isEmpty_iff.mp empty).symm
    case isFalse => rfl

omit [DecidableEq κ] in
theorem without_nonempty (slot : Option (List ι)) (x : ι) : without slot x ≠ some [] := by
  cases slot with
  | none => simp [without]
  | some items =>
    simp only [without, Option.bind_some]
    split
    case isTrue => simp
    case isFalse full => exact fun empty => full (isEmpty_iff.mpr (Option.some.inj empty))

theorem Exact.erase (exact_ : Exact m key held) (x : ι) : Exact (erase m (key x) x) key (fun y => held y ∧ y ≠ x) := by
  refine ⟨fun k => ?_, fun k => ?_, fun k y => ?_⟩
  · by_cases here : k = key x
    · subst here
      simpa [Multimap.erase] using without_nonempty (m (key x)) x
    · simpa [Multimap.erase, here] using exact_.nonempty k
  · by_cases here : k = key x
    · subst here
      rw [Multimap.erase, update_self, without_getD]
      exact (exact_.nodup _).filter _
    · simpa [Multimap.erase, here] using exact_.nodup k
  · by_cases here : k = key x
    · subst here
      rw [Multimap.erase, update_self, without_getD, mem_filter, exact_.mem]
      simp only [ne_eq, decide_not, Bool.not_eq_eq_eq_not, Bool.not_true, decide_eq_false_iff_not]
      tauto
    · rw [Multimap.erase, update_of_ne here, exact_.mem]
      refine ⟨fun ⟨inside, at_⟩ => ⟨⟨inside, ?_⟩, at_⟩, fun ⟨⟨inside, _⟩, at_⟩ => ⟨inside, at_⟩⟩
      rintro rfl
      exact here at_.symm

omit [DecidableEq ι] [DecidableEq κ] in
theorem exact_empty (empty : ∀ x, ¬ held x) : Exact (fun _ => none) key held where
  nonempty _ := by simp
  nodup _ := nodup_nil
  mem _ x := by simp [empty x]

def push (m : κ → Option (List ι)) (k : κ) (x : ι) : κ → Option (List ι) := update m k (some ((m k).getD [] ++ [x]))

def build (key : ι → κ) (items : List ι) : κ → Option (List ι) :=
  items.foldl (fun m x => push m (key x) x) (fun _ => none)

omit [DecidableEq ι] in
theorem Exact.build (key : ι → κ) {items : List ι} (distinct : items.Nodup) :
    Exact (Multimap.build key items) key (· ∈ items) := by
  classical
  suffices ∀ (m : κ → Option (List ι)) (held : ι → Prop), Exact m key held → (∀ x ∈ items, ¬ held x) →
      Exact (items.foldl (fun m x => push m (key x) x) m) key (fun x => held x ∨ x ∈ items) from
    (this _ (fun _ => False) (exact_empty fun _ => id) fun _ _ => id).congr (by simp) fun _ _ => rfl
  induction items with
  | nil => exact fun m held exact_ _ => exact_.congr (by simp) fun _ _ => rfl
  | cons x rest ih =>
    intro m held exact_ out
    obtain ⟨apart, distinct⟩ := nodup_cons.mp distinct
    have absent : x ∉ (m (key x)).getD [] := fun mem => out x (by simp) ((exact_.mem _ _).mp mem).1
    have pushed : push m (key x) x = Multimap.insert m (key x) x := by simp [push, Multimap.insert, absent]
    rw [foldl_cons, pushed]
    refine (ih distinct _ _ (exact_.insert (out x (by simp))) ?_).congr (fun y => ?_) fun _ _ => rfl
    · rintro y mem (inside | rfl)
      · exact out y (by simp [mem]) inside
      · exact apart mem
    · simp [or_assoc]

omit [DecidableEq ι] [DecidableEq κ] in
theorem Exact.rel {m' : κ → Option (List ι)} (left : Exact m key held) (right : Exact m' key held) (k : κ) :
    Option.Rel Perm (m k) (m' k) := by
  have perm : ((m k).getD []).Perm ((m' k).getD []) :=
    (perm_ext_iff_of_nodup (left.nodup k) (right.nodup k)).mpr fun x => by rw [left.mem, right.mem]
  cases here : m k with
  | none =>
    cases there : m' k with
    | none => exact .none
    | some items =>
      rw [here, there] at perm
      exact absurd (there.trans (congrArg some (nil_perm.mp perm))) (right.nonempty k)
  | some items =>
    cases there : m' k with
    | none =>
      rw [here, there] at perm
      exact absurd (here.trans (congrArg some (perm_nil.mp perm))) (left.nonempty k)
    | some items' =>
      rw [here, there] at perm
      exact .some perm

end Multimap
