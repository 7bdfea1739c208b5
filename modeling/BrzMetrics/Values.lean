/-
The values of duration samples.

A duration is the merged sum of microseconds, rounded half up to hundredths of a
second. The code divides before it rounds, so that no sum overflows, and prints
the seconds and the remainder apart; the text is the numeral of the rounded sum
(`durations_round_half_up`).
-/
import BrzMetrics.ScalarCalls

set_option autoImplicit false

namespace BrzMetrics

open SortBy TextFormat

/-! ## Durations -/

/-- Rounding after the division is rounding half up. -/
theorem hundredths_toNat (value : UInt64) :
    (PrometheusReader.hundredths value).toNat = (value.toNat + 5000) / 10000
      ∧ (value / 10000).toNat + (if value % 10000 ≥ 5000 then 1 else 0) < 2 ^ 64 := by
  have hlt := value.toNat_lt
  have hdiv : (value / 10000).toNat = value.toNat / 10000 := UInt64.toNat_div _ _
  have hmod : (value % 10000).toNat = value.toNat % 10000 := UInt64.toNat_mod _ _
  have hge : value % 10000 ≥ 5000 ↔ 5000 ≤ value.toNat % 10000 := by
    rw [ge_iff_le, UInt64.le_iff_toNat_le, hmod]
    rfl
  unfold PrometheusReader.hundredths
  by_cases h : value % 10000 ≥ 5000
  · have := hge.mp h
    rw [if_pos h, if_pos h, UInt64.toNat_add, hdiv, UInt64.toNat_one]
    omega
  · have := mt hge.mpr h
    rw [if_neg h, if_neg h, UInt64.toNat_add, hdiv, UInt64.toNat_zero]
    omega

/-- The number that a numeral of hundredths denotes. -/
theorem Decimal.toRat_ofHundredths (n : ℕ) : (Decimal.ofHundredths n).toRat = n / 100 := by
  have hdigits : n = 100 * (n / 100) + (10 * (n % 100 / 10) + n % 10) := by omega
  have hcast : (n : ℚ) = 100 * (n / 100 : ℕ) + (10 * (n % 100 / 10 : ℕ) + (n % 10 : ℕ)) := by
    exact_mod_cast hdigits
  have hfrac : Decimal.fracNat (Decimal.ofHundredths n).frac = 10 * (n % 100 / 10) + n % 10 := by
    have htwo : Decimal.fracNat (Decimal.ofHundredths n).frac
        = 10 * (10 * 0 + n % 100 / 10) + n % 10 := rfl
    omega
  have hlen : (Decimal.ofHundredths n).frac.length = 2 := rfl
  rw [Decimal.toRat, hfrac, hlen, hcast]
  simp only [Decimal.ofHundredths, Bool.false_eq_true, if_false]
  push_cast
  ring

/-- A longer duration is never rounded to a smaller number. -/
theorem durations_mono {v w : ℕ} (h : v ≤ w) :
    (Decimal.ofHundredths ((v + 5000) / 10000)).toRat
      ≤ (Decimal.ofHundredths ((w + 5000) / 10000)).toRat := by
  rw [Decimal.toRat_ofHundredths, Decimal.toRat_ofHundredths]
  have hmono : (v + 5000) / 10000 ≤ (w + 5000) / 10000 :=
    Nat.div_le_div_right (Nat.add_le_add_right h 5000)
  have hcast : (((v + 5000) / 10000 : ℕ) : ℚ) ≤ ((w + 5000) / 10000 : ℕ) := by
    exact_mod_cast hmono
  linarith

/-- Duration samples are rounded exactly. For any slots and any memory, the value of the sample is
the sum of their microseconds, cut off at `u64::MAX`, and rounded half up to hundredths of a
second: this is the text the code writes, a numeral with two digits after the point, that reads
back as that number, is at most 5 ms off, and never falls as the sum grows. No operation on the way
overflows. -/
theorem durations_round_half_up :
    (∀ (memory : Memory) (family : Family) (view : View) (items : List SourceItem)
        (buffer : List UInt8), family.seconds = true →
      let v := min (2 ^ 64 - 1)
        ((items.map (fun item => (item.count memory family.counter).toNat)).sum)
      let h := (v + 5000) / 10000
      let text := toString (h / 100) ++ "."
        ++ String.ofList [Nat.digitChar (h % 100 / 10), Nat.digitChar (h % 10)]
      (Line.group family view items).entry memory
        = .sample family.name view.labels (Decimal.ofHundredths h)
      ∧ PrometheusReader.write_value buffer family.val family.seconds
          (group_value memory family.counter items) (group_gauge memory items)
          = buffer ++ bytes (text ++ "\n")
      ∧ Decimal.parse text = some (Decimal.ofHundredths h)
      ∧ (Decimal.ofHundredths h).toRat = h / 100
      ∧ |(Decimal.ofHundredths h).toRat - v / 1000000| ≤ 5 / 1000)
    ∧ (∀ value : UInt64,
      (value / 10000).toNat + (if value % 10000 ≥ 5000 then 1 else 0) < 2 ^ 64)
    ∧ ∀ v w : ℕ, v ≤ w → (Decimal.ofHundredths ((v + 5000) / 10000)).toRat
        ≤ (Decimal.ofHundredths ((w + 5000) / 10000)).toRat := by
  refine ⟨fun memory family view items buffer hseconds => ?_, fun value => (hundredths_toNat value).2,
    fun v w => durations_mono⟩
  · have hgauge : family.is_gauge = false := by
      revert family
      decide
    intro v h text
    -- the sum is cut off before it is rounded, so rounding up cannot overflow
    have hvalue : sample_value memory family items = Decimal.ofHundredths h := by
      have hrounded := (hundredths_toNat (group_value memory family.counter items)).1
      rw [group_value_toNat] at hrounded
      rw [sample_value, if_neg (by rw [hgauge]; simp), if_pos hseconds, hrounded]
      rfl
    have htext : (Decimal.ofHundredths h).text = text := by
      have hmod : h % 100 % 10 = h % 10 := by omega
      rw [ofHundredths_text, pad2_eq (Nat.mod_lt _ (by decide)), hmod]
    refine ⟨by rw [Line.entry, hvalue], ?_, ?_, Decimal.toRat_ofHundredths h, ?_⟩
    · rw [write_value_eq, hvalue, htext, bytes_append]
      rfl
    · rw [← htext, Decimal.parse_text]
    · -- rounding moves the sum by at most half a hundredth
      have hlo : 10000 * h ≤ v + 5000 := Nat.mul_div_le _ _
      have hhi : v + 5000 < 10000 * h + 10000 := by omega
      have hlo' : (10000 : ℚ) * h ≤ v + 5000 := by exact_mod_cast hlo
      have hhi' : (v : ℚ) + 5000 ≤ 10000 * h + 10000 := by exact_mod_cast hhi.le
      rw [Decimal.toRat_ofHundredths, abs_le]
      constructor <;> linarith

end BrzMetrics
