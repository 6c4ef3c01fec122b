import Mathlib.Data.List.Basic
import Mathlib.Tactic

namespace Goz

variable {a b : Bytes}

abbrev Bytes := List UInt8

theorem compare_bytes_of_lt (lt : a < b) : compare a b = .lt := by
  rw [List.compare_eq_compareLex]
  induction a generalizing b with
  | nil =>
    cases b with
    | nil => exact absurd lt (List.lt_irrefl [])
    | cons y b => exact List.compareLex_nil_cons
  | cons x a ih =>
    cases b with
    | nil => exact absurd lt (List.not_lt_nil _)
    | cons y b =>
      rw [List.compareLex_cons_cons]
      rcases List.cons_lt_cons_iff.mp lt with first | ⟨rfl, rest⟩
      · rw [Std.compare_eq_lt.mpr first]
        rfl
      · rw [Std.compare_self, ih rest]
        rfl

theorem compare_bytes_eq_lt : compare a b = .lt ↔ a < b := by
  refine ⟨fun order => ?_, compare_bytes_of_lt⟩
  rcases Std.lt_trichotomy a b with lt | rfl | gt
  · exact lt
  · rw [Std.compare_self] at order
    cases order
  · have turned : compare a b = (compare b a).swap := Std.OrientedCmp.eq_swap
    rw [turned, compare_bytes_of_lt gt] at order
    cases order

theorem compare_bytes_eq_gt : compare a b = .gt ↔ b < a := by
  rw [← compare_bytes_eq_lt]
  exact Std.OrientedCmp.gt_iff_lt

/-- A 48-bit MFT record number and a 16-bit sequence number in one word. -/
structure Frn where
  raw : UInt64
  deriving DecidableEq, Repr

namespace Frn

def recordNumber (frn : Frn) : Nat := (frn.raw &&& 0x0000FFFFFFFFFFFF).toNat

def Stale (frn other : Frn) : Prop := other ≠ frn ∧ other.recordNumber = frn.recordNumber

instance (frn other : Frn) : Decidable (Stale frn other) := inferInstanceAs (Decidable (_ ∧ _))

theorem Stale.symm {frn other : Frn} (stale : frn.Stale other) : other.Stale frn :=
  ⟨Ne.symm stale.1, stale.2.symm⟩

end Frn

/-- A slot of the entry table. The sentinel `NIL` is `none` wherever a link may be absent. -/
abbrev EntryIdx := Nat

abbrev NameId := Nat

inductive SortKey
  | name | path | size | dateModified
  deriving DecidableEq, Repr

inductive SortDir
  | asc | desc
  deriving DecidableEq, Repr

structure SortSpec where
  key : SortKey
  dir : SortDir
  deriving DecidableEq, Repr

/-- Parts of the libraries the program links: the Unicode tables behind case folding and the
    hash of the scope index. -/
class Externals where
  decomposeCanonical : Char → List Char
  toLowercase : Char → List Char
  nfc : List Char → List Char
  fxHash : Bytes → UInt64

abbrev Externals.ascii : Externals where
  decomposeCanonical c := [c]
  toLowercase c := [c.toLower]
  nfc chars := chars
  fxHash bytes := bytes.foldl (fun hash b => hash * 31 + b.toUInt64) 7

end Goz
