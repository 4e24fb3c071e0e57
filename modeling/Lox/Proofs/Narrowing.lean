import Lox.Word
import Mathlib.Tactic.Common

/-!
# Narrowing reports what fits

`narrow` converts an integer by wrapping it around and tells whether it survived by two tests:
converting back gives the integer again, and the sign is the same. Either test alone is wrong for
some pair of types. `2 ^ 63` goes from 64 unsigned bits to 64 signed ones and back unharmed, and so
does `-1` from 8 signed bits to 64 unsigned ones and back.

`narrow_fits` says that both together report exactly the integers of the target type, whatever the
two widths and signs are.

* `wrap` picks the one integer of a type that differs by a multiple of `count` (`eq_wrap_iff`).
* After the round trip an integer and its conversion differ by a multiple of either `count`, hence
  of the greater one. Having the same sign they are less than that apart, so they are equal
  (`eq_of_round_trip`).
-/

namespace Lox.IntType

variable {t source target : IntType} {i n : Int}

/-- The number of integers of a type. -/
def count (t : IntType) : Int :=
  (Nat.pow 2 t.width : Int)

/-- A type contains the integers from its least to its greatest. -/
theorem contains_iff : t.contains i = true ↔ t.least ≤ i ∧ i ≤ t.greatest := by
  simp [contains]

/-- Every type has an integer. -/
theorem count_pos (t : IntType) : 0 < t.count := by
  unfold count
  exact Int.natCast_pos.mpr (Nat.two_pow_pos t.width)

/-- Counts are powers of two, so that of a narrower type divides that of a wider one. -/
theorem count_dvd_count (h : source.width ≤ target.width) : source.count ∣ target.count := by
  unfold count
  exact Int.natCast_dvd_natCast.mpr (Nat.pow_dvd_pow 2 h)

/-- The sign bit halves the integers of a type. -/
theorem count_eq_double (h : 0 < t.width) : t.count = 2 * (Nat.pow 2 (t.width - 1) : Int) := by
  obtain ⟨w, hw⟩ : ∃ w, t.width = w + 1 := ⟨t.width - 1, by omega⟩
  have hpow : Nat.pow 2 (w + 1) = Nat.pow 2 w * 2 := rfl
  unfold count
  rw [hw, hpow, Nat.add_sub_cancel]
  omega

/-- The integers of a type follow one another from the least on. -/
theorem greatest_eq (h : 0 < t.width) : t.greatest = t.least + t.count - 1 := by
  have hdouble := count_eq_double h
  unfold greatest least
  split
  · omega
  · simp [count]

/-- Zero belongs to every type. -/
theorem contains_zero (t : IntType) : t.contains 0 = true := by
  have hhalf : (0 : Int) < (Nat.pow 2 (t.width - 1) : Int) :=
    Int.natCast_pos.mpr (Nat.two_pow_pos (t.width - 1))
  have hpos : (0 : Int) < (Nat.pow 2 t.width : Int) := count_pos t
  rw [contains_iff]
  unfold least greatest
  split <;> omega

/-! ## Wrapping around -/

/-- Wrapping around leads into the range of the type. -/
theorem contains_wrap (h : 0 < t.width) (i : Int) : t.contains (t.wrap i) = true := by
  have hpos := count_pos t
  have hdouble := count_eq_double h
  rw [contains_iff, greatest_eq h]
  unfold wrap least
  split
  · have hnat : 0 < Nat.pow 2 t.width := Nat.two_pow_pos t.width
    have hle := Int.le_bmod (x := i) hnat
    have hlt := Int.bmod_lt (x := i) hnat
    unfold count at hdouble ⊢
    omega
  · have hle := Int.emod_nonneg i (Int.ne_of_gt hpos)
    have hlt := Int.emod_lt_of_pos i hpos
    unfold count at *
    omega

/-- Wrapping around keeps the residue. -/
theorem dvd_wrap_sub (t : IntType) (i : Int) : t.count ∣ t.wrap i - i := by
  unfold wrap count
  split
  · exact Int.dvd_bmod_sub_self
  · exact Int.dvd_emod_sub_self

/-- Two integers of a type that differ by a multiple of `count` are the same. -/
theorem eq_of_dvd_sub (h : 0 < t.width) (hi : t.contains i = true) (hn : t.contains n = true)
    (hdvd : t.count ∣ n - i) : n = i := by
  rw [contains_iff, greatest_eq h] at hi hn
  have hzero : n - i = 0 := by
    apply Int.eq_zero_of_dvd_of_natAbs_lt_natAbs hdvd
    omega
  omega

/-- Wrapping around gives the one integer of the type with the same residue. -/
theorem eq_wrap_iff (h : 0 < t.width) :
    n = t.wrap i ↔ t.contains n = true ∧ t.count ∣ n - i := by
  constructor
  · rintro rfl
    exact ⟨contains_wrap h i, dvd_wrap_sub t i⟩
  · rintro ⟨hn, hdvd⟩
    apply eq_of_dvd_sub h (contains_wrap h i) hn
    have hsum : t.count ∣ (n - i) - (t.wrap i - i) := Int.dvd_sub hdvd (dvd_wrap_sub t i)
    have heq : (n - i) - (t.wrap i - i) = n - t.wrap i := by omega
    rwa [heq] at hsum

/-- An integer of the type is left as it is. -/
theorem wrap_of_contains (h : 0 < t.width) (hi : t.contains i = true) : t.wrap i = i :=
  ((eq_wrap_iff h).mpr ⟨hi, by simp⟩).symm

/-! ## The round trip -/

/-- Zero belongs to every type. So an integer of the narrower of two types and one of the wider, on
the same side of zero, are less apart than the wider one has integers. -/
theorem natAbs_sub_lt (hs : 0 < source.width) (ht : 0 < target.width)
    (hle : source.width ≤ target.width) (hi : source.contains i = true)
    (hn : target.contains n = true) (hsign : n < 0 ↔ i < 0) :
    (n - i).natAbs < target.count.natAbs := by
  have hcount : source.count ≤ target.count :=
    Int.le_of_dvd (count_pos target) (count_dvd_count hle)
  have hzero := contains_zero source
  have hzero' := contains_zero target
  rw [contains_iff, greatest_eq hs] at hi hzero
  rw [contains_iff, greatest_eq ht] at hn hzero'
  by_cases hneg : i < 0
  · have hneg' := hsign.mpr hneg
    omega
  · have hneg' : ¬n < 0 := fun h => hneg (hsign.mp h)
    omega

/-- An integer that survives the round trip with its sign is its own conversion. -/
theorem eq_of_round_trip (hs : 0 < source.width) (ht : 0 < target.width)
    (hi : source.contains i = true) (hback : source.wrap (target.wrap i) = i)
    (hsign : target.wrap i < 0 ↔ i < 0) : target.wrap i = i := by
  have hdvd : target.count ∣ target.wrap i - i := dvd_wrap_sub target i
  have hdvd' : source.count ∣ i - target.wrap i := by
    have hwrap := dvd_wrap_sub source (target.wrap i)
    rwa [hback] at hwrap
  have hzero : target.wrap i - i = 0 := by
    rcases Nat.le_total source.width target.width with hle | hle
    · apply Int.eq_zero_of_dvd_of_natAbs_lt_natAbs hdvd
      exact natAbs_sub_lt hs ht hle hi (contains_wrap ht i) hsign
    · have hlt := natAbs_sub_lt ht hs hle (contains_wrap ht i) hi hsign.symm
      have hback : i - target.wrap i = 0 := Int.eq_zero_of_dvd_of_natAbs_lt_natAbs hdvd' hlt
      omega
  omega

/-- An integer is reported to have survived if it comes back, with its sign. -/
theorem snd_narrow_iff :
    (source.narrow target i).2 = true ↔
      source.wrap (target.wrap i) = i ∧ (target.wrap i < 0 ↔ i < 0) := by
  simp [narrow]

/-- Narrowing reports exactly whether an integer fits. For all types, it is reported to have
survived if and only if it lies in the range of the target type, and then it is unchanged. In any
case the answer is the one integer in that range with the same residue. -/
theorem narrow_fits (source target : IntType) (hs : 0 < source.width) (ht : 0 < target.width)
    (i : Int) (hi : source.contains i = true) :
    ((source.narrow target i).2 = true ↔ target.least ≤ i ∧ i ≤ target.greatest) ∧
    ((source.narrow target i).2 = true → (source.narrow target i).1 = i) ∧
    ∀ n, (source.narrow target i).1 = n ↔
      (target.least ≤ n ∧ n ≤ target.greatest) ∧ (Nat.pow 2 target.width : Int) ∣ n - i := by
  have hsurvives : (source.narrow target i).2 = true → target.wrap i = i := by
    intro h
    obtain ⟨hback, hsign⟩ := snd_narrow_iff.mp h
    exact eq_of_round_trip hs ht hi hback hsign
  refine ⟨⟨?_, ?_⟩, hsurvives, ?_⟩
  · intro h
    rw [← contains_iff, ← hsurvives h]
    exact contains_wrap ht i
  · intro h
    have hwrap : target.wrap i = i := wrap_of_contains ht (contains_iff.mpr h)
    rw [snd_narrow_iff, hwrap]
    exact ⟨wrap_of_contains hs hi, Iff.rfl⟩
  · intro n
    rw [← contains_iff, eq_comm]
    exact eq_wrap_iff ht

/-- `2 ^ 63` in 64 unsigned bits comes back from 64 signed ones, where it has lost its sign. It does
not fit. -/
theorem narrow_fits_signBit :
    (IntType.mk false 64).contains 9223372036854775808 = true ∧
      (IntType.mk false 64).wrap (IntType.wrap ⟨true, 64⟩ 9223372036854775808)
        = 9223372036854775808 ∧
      (IntType.narrow ⟨false, 64⟩ ⟨true, 64⟩ 9223372036854775808).2 ≠ true ∧
      (IntType.narrow ⟨false, 64⟩ ⟨true, 64⟩ 9223372036854775808).1 = -9223372036854775808 := by
  have hcontains : (IntType.mk false 64).contains 9223372036854775808 = true := by decide
  obtain ⟨hfits, -, hvalue⟩ :=
    narrow_fits ⟨false, 64⟩ ⟨true, 64⟩ (by decide) (by decide) 9223372036854775808 hcontains
  refine ⟨hcontains, by decide, ?_, ?_⟩
  · rw [ne_eq, hfits]
    decide
  · rw [hvalue]
    decide

end Lox.IntType
