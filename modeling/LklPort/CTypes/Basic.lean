import Mathlib.Algebra.Group.Int.Defs
import Mathlib.Tactic.Common

/-!
# C integers on LP64

The values of the C integer and pointer types of an LP64 machine are bit vectors, and one rule
converts them: a value is extended by its sign if its own type is signed and by zeros otherwise,
or cut down to the width of the new type.
-/

namespace CTypes

open BitVec

/-- The types of the parameters and results of C functions. -/
inductive CType where
  | int
  | uint
  | long
  | ulong
  | llong
  | ptr
  deriving DecidableEq

def CType.width : CType → ℕ
  | .int | .uint => 32
  | .long | .ulong | .llong | .ptr => 64

def CType.signed : CType → Bool
  | .int | .long | .llong => true
  | .uint | .ulong | .ptr => false

lemma CType.width_le_long (t : CType) : t.width ≤ CType.long.width := by
  cases t <;> decide

lemma setWidth_signExtend {w v : ℕ} (h : w ≤ v) (x : BitVec w) :
    (x.signExtend v).setWidth w = x := by
  ext i hi
  rw [getElem_setWidth, getLsbD_signExtend, if_pos hi, getLsbD_eq_getElem hi,
    decide_eq_true (Nat.lt_of_lt_of_le hi h), Bool.true_and]

/-- A value of a C type. -/
abbrev Val (t : CType) := BitVec t.width

namespace Val

variable {t : CType}

/-- The number that a value stands for. -/
def num (x : Val t) : ℤ := if t.signed then x.toInt else x.toNat

/-- The conversion to another type. -/
def cast (u : CType) (x : Val t) : Val u :=
  if t.signed then x.signExtend u.width else x.setWidth u.width

lemma num_of_signed (ht : t.signed = true) (x : Val t) : x.num = x.toInt := if_pos ht

lemma cast_of_signed (ht : t.signed = true) (u : CType) (x : Val t) :
    x.cast u = x.signExtend u.width := if_pos ht

lemma cast_long_cast (x : Val t) : (x.cast .long).cast t = x := by
  rw [cast_of_signed rfl, signExtend_eq_setWidth_of_le _ t.width_le_long]
  unfold cast
  split_ifs
  · exact setWidth_signExtend t.width_le_long x
  · rw [setWidth_setWidth_of_le _ t.width_le_long, setWidth_eq]

lemma cast_long_ulong_cast (x : Val t) : ((x.cast .long).cast .ulong).cast t = x := by
  have hread : (x.cast .long).cast .ulong = x.cast .long := signExtend_eq _
  have hcut := signExtend_eq_setWidth_of_le (x.cast .long) t.width_le_long
  rw [hread]
  exact hcut.symm.trans (cast_long_cast x)

lemma cast_int_cast_eq_iff (v : Val .long) :
    (v.cast .int).cast .long = v ↔ - 2 ^ 31 ≤ v.num ∧ v.num < 2 ^ 31 := by
  have hint : ((v.cast .int).cast .long).toInt = v.toInt.bmod (2 ^ 32) := by
    rw [cast_of_signed rfl, toInt_signExtend_of_le (by decide), cast_of_signed rfl,
      toInt_signExtend]
    rfl
  rw [← toInt_inj, hint, num_of_signed rfl]
  constructor
  · intro h
    have hle := Int.le_bmod (x := v.toInt) (m := 2 ^ 32) (by decide)
    have hlt := Int.bmod_lt (x := v.toInt) (m := 2 ^ 32) (by decide)
    omega
  · rintro ⟨hle, hlt⟩
    exact Int.bmod_eq_of_le (by omega) (by omega)

end Val

end CTypes
