import Mathlib.Data.Int.ModEq
import Scriptlet.Arithmetic
/-!
# Words

The operators on whole numbers are those of a machine on 64-bit words in two's complement. A number
is folded by reading its lowest 64 bits with their sign (`wrap_eq_toInt`), and sums, differences and
products of numbers are those of their words. A quotient is put together from the sizes and the
signs of its operands, and is the exact one without its fraction (`quotient_eq_tdiv`); the least
word divided by minus one is the only quotient that has to be folded (`inRange_tdiv`). Main
statement: `arithmetic_of_words`.
-/

namespace Scriptlet

open BitVec (ofInt)

/-! ## Folding -/

theorem wrap_eq_toInt (n : Int) : wrap n = (ofInt 64 n).toInt := by
  rw [BitVec.toInt_ofInt, Int.bmod_def]
  unfold wrap intMin words
  omega

theorem toInt_ofInt_of_range {n : Int} (h : InRange n) : (ofInt 64 n).toInt = n := by
  rw [← wrap_eq_toInt, wrap_of_range h]

/-- The folded number is the only word that agrees with a number modulo `2 ^ 64`. -/
theorem wrap_eq_iff {z w : Int} : wrap z = w ↔ InRange w ∧ w ≡ z [ZMOD 2 ^ 64] := by
  constructor
  · rintro rfl
    exact ⟨wrap_range z, wrap_emod z⟩
  · rintro ⟨hrange, hmod⟩
    have hsame : wrap z = wrap w := by
      unfold Int.ModEq at hmod
      unfold wrap intMin words
      omega
    rw [hsame, wrap_of_range hrange]

theorem ofInt_wrap (n : Int) : ofInt 64 (wrap n) = ofInt 64 n := by
  rw [wrap_eq_toInt, BitVec.ofInt_toInt]

/-! ### What may be folded later

Whether the operands of a sum, a difference, a product or a negation are folded does not show in the
folded result. -/

theorem wrap_add_wrap (a b : Int) : wrap (wrap a + wrap b) = wrap (a + b) := by
  rw [wrap_eq_toInt, BitVec.ofInt_add, ofInt_wrap, ofInt_wrap, ← BitVec.ofInt_add, ← wrap_eq_toInt]

theorem wrap_mul_wrap (a b : Int) : wrap (wrap a * wrap b) = wrap (a * b) := by
  rw [wrap_eq_toInt, BitVec.ofInt_mul, ofInt_wrap, ofInt_wrap, ← BitVec.ofInt_mul, ← wrap_eq_toInt]

theorem wrap_neg_wrap (a : Int) : wrap (-wrap a) = wrap (-a) := by
  rw [wrap_eq_toInt, BitVec.ofInt_neg, ofInt_wrap, ← BitVec.ofInt_neg, ← wrap_eq_toInt]

theorem wrap_sub_wrap (a b : Int) : wrap (wrap a - wrap b) = wrap (a - b) := by
  rw [Int.sub_eq_add_neg, Int.sub_eq_add_neg, ← wrap_add_wrap (wrap a), wrap_neg_wrap,
    wrap_of_range (wrap_range a), wrap_add_wrap]

/-! ## Division -/

section

variable {a b : Int}

/-- A quotient whose remainder is smaller than the divisor, and is zero or has the sign of the
dividend. -/
def IsQuotient (a b q : Int) : Prop :=
  ∃ r : Int, a = q * b + r ∧ r.natAbs < b.natAbs ∧ (r = 0 ∨ r.sign = a.sign)

theorem isQuotient_tdiv (a : Int) (hb : b ≠ 0) : IsQuotient a b (a.tdiv b) := by
  refine ⟨a.tmod b, (Int.tdiv_mul_add_tmod a b).symm, ?_, ?_⟩
  · rw [Int.natAbs_tmod]
    exact Nat.mod_lt _ (Int.natAbs_pos.mpr hb)
  · have hsign := Int.sign_tmod a b
    split at hsign
    · exact .inl (Int.sign_eq_zero_iff_zero.mp hsign)
    · exact .inr hsign

/-- The sizes of two numbers divided, with a minus sign if their signs differ. -/
theorem quotient_eq_tdiv (a b : Int) :
    (if a < 0 ↔ b < 0 then ((a.natAbs / b.natAbs : Nat) : Int) else -(a.natAbs / b.natAbs : Nat)) =
      a.tdiv b := by
  obtain ⟨m, rfl | rfl⟩ := a.eq_nat_or_neg <;> obtain ⟨n, rfl | rfl⟩ := b.eq_nat_or_neg
  all_goals
    simp only [Int.natAbs_neg, Int.natAbs_natCast, Int.tdiv_neg, Int.neg_tdiv, Int.neg_neg,
      ← Int.ofNat_tdiv]
  -- the signs tell, unless an operand is zero and with it the quotient
  all_goals
    rcases Nat.eq_zero_or_pos m with rfl | hm
    · simp
    · rcases Nat.eq_zero_or_pos n with rfl | hn
      · simp
      · split <;> omega

theorem inRange_tdiv (ha : InRange a) (hb : b ≠ 0) (h : ¬(a = intMin ∧ b = -1)) :
    InRange (a.tdiv b) := by
  unfold InRange intMin intMax at *
  by_cases hunit : b.natAbs = 1
  · rcases Int.natAbs_eq_iff.mp hunit with rfl | rfl
    · rw [Nat.cast_one, Int.tdiv_one]
      exact ha
    · rw [Nat.cast_one, Int.tdiv_neg, Int.tdiv_one]
      omega
  · have hhalf : a.natAbs / b.natAbs ≤ a.natAbs / 2 := Nat.div_le_div_left (by omega) (by decide)
    have habs : (a.tdiv b).natAbs = a.natAbs / b.natAbs := Int.natAbs_tdiv a b
    omega

theorem divide_ints (a b : Int) : applyArithmetic "/" (.int a) (.int b) =
    if b = 0 then .error .divisionByZero else .ok (.int (wrap (a.tdiv b))) := by
  change (ArithOp.divide.onInts a b).map Value.int = _
  rw [ArithOp.onInts]
  split
  · rfl
  · rw [← quotient_eq_tdiv]
    rfl

theorem toInt_sdiv_ofInt (ha : InRange a) (hb : InRange b) :
    ((ofInt 64 a).sdiv (ofInt 64 b)).toInt = wrap (a.tdiv b) := by
  rw [BitVec.toInt_sdiv, toInt_ofInt_of_range ha, toInt_ofInt_of_range hb, wrap_eq_toInt,
    BitVec.toInt_ofInt]

end

/-! ## Operators -/

/-- The operators on whole numbers in range are those on the words that denote them. Division fails
for a divisor of zero and for no other; otherwise it gives the quotient without its fraction, except
that the least number divided by minus one is itself. A number of any size is folded to the one word
that agrees with it modulo `2 ^ 64`. -/
theorem arithmetic_of_words :
    (∀ a b : Int, InRange a → InRange b →
      let x := ofInt 64 a
      let y := ofInt 64 b
      (x.toInt = a ∧ y.toInt = b) ∧
        applyArithmetic "+" (.int a) (.int b) = .ok (.int (x + y).toInt) ∧
        applyArithmetic "-" (.int a) (.int b) = .ok (.int (x - y).toInt) ∧
        applyArithmetic "*" (.int a) (.int b) = .ok (.int (x * y).toInt) ∧
        negate (.int a) = .ok (.int (-x).toInt) ∧
        ((∃ f, applyArithmetic "/" (.int a) (.int b) = .error f ∧ f.faultClass = .arithmetic) ↔
          b = 0) ∧
        (b ≠ 0 → ∃ q, applyArithmetic "/" (.int a) (.int b) = .ok (.int q) ∧
          q = (x.sdiv y).toInt ∧ if a = intMin ∧ b = -1 then q = intMin else IsQuotient a b q)) ∧
      ∀ z w : Int, wrap z = w ↔ InRange w ∧ w ≡ z [ZMOD 2 ^ 64] := by
  refine ⟨fun a b ha hb => ?_, fun z w => wrap_eq_iff⟩
  refine ⟨⟨toInt_ofInt_of_range ha, toInt_ofInt_of_range hb⟩, ?_, ?_, ?_, ?_, ?_, ?_⟩
  · rw [← BitVec.ofInt_add, ← wrap_eq_toInt]
    rfl
  · rw [BitVec.sub_eq_add_neg, ← BitVec.ofInt_neg, ← BitVec.ofInt_add, ← wrap_eq_toInt,
      ← Int.sub_eq_add_neg]
    rfl
  · rw [← BitVec.ofInt_mul, ← wrap_eq_toInt]
    rfl
  · rw [← BitVec.ofInt_neg, ← wrap_eq_toInt]
    rfl
  · rw [divide_ints]
    constructor
    · rintro ⟨f, hf, -⟩
      by_contra hne
      rw [if_neg hne] at hf
      cases hf
    · intro hzero
      exact ⟨.divisionByZero, if_pos hzero, rfl⟩
  · intro hne
    refine ⟨wrap (a.tdiv b), ?_, (toInt_sdiv_ofInt ha hb).symm, ?_⟩
    · rw [divide_ints, if_neg hne]
    · split
      next hleast =>
        obtain ⟨rfl, rfl⟩ := hleast
        decide
      next hleast =>
        rw [wrap_of_range (inRange_tdiv ha hne hleast)]
        exact isQuotient_tdiv a hne

/-- The least number and minus one, where every operator but the difference overflows. -/
theorem arithmetic_of_words_least :
    let x := ofInt 64 intMin
    let y := ofInt 64 (-1)
    (x.toInt = intMin ∧ y.toInt = -1) ∧
      applyArithmetic "+" (.int intMin) (.int (-1)) = .ok (.int (x + y).toInt) ∧
      applyArithmetic "-" (.int intMin) (.int (-1)) = .ok (.int (x - y).toInt) ∧
      applyArithmetic "*" (.int intMin) (.int (-1)) = .ok (.int (x * y).toInt) ∧
      negate (.int intMin) = .ok (.int (-x).toInt) ∧
      ((∃ f, applyArithmetic "/" (.int intMin) (.int (-1)) = .error f ∧
        f.faultClass = .arithmetic) ↔ (-1 : Int) = 0) ∧
      ((-1 : Int) ≠ 0 → ∃ q, applyArithmetic "/" (.int intMin) (.int (-1)) = .ok (.int q) ∧
        q = (x.sdiv y).toInt ∧
          if intMin = intMin ∧ (-1 : Int) = -1 then q = intMin else IsQuotient intMin (-1) q) :=
  arithmetic_of_words.1 intMin (-1) (by decide) (by decide)

example : applyArithmetic "/" (.int (-7)) (.int 2) = .ok (.int (-3)) := rfl

end Scriptlet
