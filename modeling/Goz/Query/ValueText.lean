import Mathlib.Data.List.DropRight
import Goz.Query.Compile

namespace Goz.Query

open List

/-- `char::is_whitespace`. -/
def isWhitespace (c : Char) : Bool :=
  (0x9 ≤ c.toNat && c.toNat ≤ 0xD) || (0x2000 ≤ c.toNat && c.toNat ≤ 0x200A) ||
    c.toNat ∈ [0x20, 0x85, 0xA0, 0x1680, 0x2028, 0x2029, 0x202F, 0x205F, 0x3000]

def trim (text : List Char) : List Char := (text.dropWhile isWhitespace).rdropWhile isWhitespace

/-- Rust's `to_ascii_lowercase` of a text. -/
def lowercase (text : List Char) : List Char := text.map Char.toLower

/-- `split_once("..")`. -/
def splitDots : List Char → Option (List Char × List Char)
  | '.' :: '.' :: hi => some ([], hi)
  | c :: rest => (splitDots rest).map fun (lo, hi) => (c :: lo, hi)
  | [] => none

def decimal (digits : List Char) : Nat := digits.foldl (fun n c => n * 10 + (c.toNat - 48)) 0

inductive QueryError
  | unsupportedOperator (op : Char)
  | malformed (what : String) (detail : List Char)
  | tooManyTerms (count : Nat)
  | unknownFunction (name : List Char)
  | noClock
  deriving DecidableEq

variable {c : Char}

theorem digit_bounds (digit : c.isDigit) : 48 ≤ c.toNat ∧ c.toNat ≤ 57 := by
  simp only [Char.isDigit, Bool.and_eq_true, decide_eq_true_eq] at digit
  exact ⟨digit.1, digit.2⟩

end Goz.Query
