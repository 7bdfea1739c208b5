/-
Saturating sums of machine integers.

`u64::saturating_add` and `i64::saturating_add`, and what folding them over a
list gives. The unsigned fold is the exact sum cut off at the maximum, in every
order. The signed fold is exact as long as the absolute values stay within the
maximum: then no intermediate sum leaves the range, in any order.

In general the signed fold depends on the order: where it saturates in one
direction, what follows of the other sign starts from the limit. The value is the
clamped sum in every order exactly when that cannot happen
(`foldl_clamped_iff`).
-/
import Mathlib

set_option autoImplicit false

namespace BrzMetrics

/-- Adding up a condition is adding up what meets it. -/
theorem sum_map_ite {α : Type} (l : List α) (p : α → Prop) [DecidablePred p] (f : α → ℕ) :
    (l.map (fun a => if p a then f a else 0)).sum = ((l.filter p).map f).sum := by
  induction l with
  | nil => rfl
  | cons a l ih =>
    rw [List.map_cons, List.sum_cons, ih, List.filter_cons]
    by_cases h : p a <;> simp [h]

/-- `u64::saturating_add`. -/
def saturating_add_u64 (a b : UInt64) : UInt64 :=
  if a.toNat + b.toNat < 2 ^ 64 then a + b else UInt64.ofNat (2 ^ 64 - 1)

theorem saturating_add_u64_toNat (a b : UInt64) :
    (saturating_add_u64 a b).toNat = min (2 ^ 64 - 1) (a.toNat + b.toNat) := by
  unfold saturating_add_u64
  split_ifs with h
  · rw [UInt64.toNat_add, Nat.mod_eq_of_lt h]
    omega
  · rw [UInt64.toNat_ofNat_of_lt' (by simp [UInt64.size])]
    omega

/-- A saturating fold is the exact sum, cut off once at the end. -/
theorem foldl_saturating_add_u64 {α : Type*} (f : α → UInt64) (l : List α) (v : UInt64) :
    (l.foldl (fun acc a => saturating_add_u64 acc (f a)) v).toNat
      = min (2 ^ 64 - 1) (v.toNat + (l.map (fun a => (f a).toNat)).sum) := by
  induction l generalizing v with
  | nil =>
    have := v.toNat_lt
    simp only [List.foldl_nil, List.map_nil, List.sum_nil]
    omega
  | cons a l ih =>
    rw [List.foldl_cons, ih, saturating_add_u64_toNat, List.map_cons, List.sum_cons]
    omega

/-- `i64::MAX`. -/
def I64_MAX : ℤ := 2 ^ 63 - 1

/-- `i64::MIN`. -/
def I64_MIN : ℤ := -2 ^ 63

/-- `i64::saturating_add`. -/
def saturating_add_i64 (a b : Int64) : Int64 :=
  Int64.ofInt (max I64_MIN (min I64_MAX (a.toInt + b.toInt)))

theorem saturating_add_i64_toInt (a b : Int64) :
    (saturating_add_i64 a b).toInt = max I64_MIN (min I64_MAX (a.toInt + b.toInt)) := by
  unfold saturating_add_i64
  refine Int64.toInt_ofInt_of_le ?_ ?_ <;> unfold I64_MIN I64_MAX <;> omega

/-- The range of `i64`. -/
def clamp_i64 (n : ℤ) : ℤ := max I64_MIN (min I64_MAX n)

section Fold

variable {α : Type*} (f : α → Int64)

/-- The positive values of a list, summed. -/
def positive (l : List α) : ℤ := (l.map (fun a => max (f a).toInt 0)).sum

/-- The negative values of a list, summed without their sign. -/
def negative (l : List α) : ℤ := (l.map (fun a => max (-(f a).toInt) 0)).sum

theorem positive_nonneg (l : List α) : 0 ≤ positive f l :=
  List.sum_nonneg (by simp)

theorem negative_nonneg (l : List α) : 0 ≤ negative f l :=
  List.sum_nonneg (by simp)

/-- A sum is what its positive values exceed its negative values by. -/
theorem sum_eq_positive_sub (l : List α) :
    (l.map (fun a => (f a).toInt)).sum = positive f l - negative f l := by
  induction l with
  | nil => rfl
  | cons a l ih =>
    simp only [positive, negative, List.map_cons, List.sum_cons] at ih ⊢
    rw [ih]
    omega

/-- Folding signed saturating addition loses nothing while no partial sum can leave the range. -/
theorem foldl_exact (l : List α) (v : Int64) (hhi : v.toInt + positive f l ≤ I64_MAX)
    (hlo : I64_MIN ≤ v.toInt - negative f l) :
    (l.foldl (fun acc a => saturating_add_i64 acc (f a)) v).toInt
      = v.toInt + (l.map (fun a => (f a).toInt)).sum := by
  induction l generalizing v with
  | nil => simp
  | cons a l ih =>
    have hpos := positive_nonneg f l
    have hneg := negative_nonneg f l
    simp only [positive, negative, List.map_cons, List.sum_cons] at hhi hlo hpos hneg
    -- the next partial sum is in range, so the clamp does nothing
    have hexact : (saturating_add_i64 v (f a)).toInt = v.toInt + (f a).toInt := by
      rw [saturating_add_i64_toInt]
      omega
    rw [List.foldl_cons, ih _ (by rw [hexact, positive]; omega) (by rw [hexact, negative]; omega),
      hexact, List.map_cons, List.sum_cons]
    ring

/-- Folding signed saturating addition loses nothing while the absolute values fit. -/
theorem foldl_saturating_add_i64 (l : List α) (v : Int64)
    (h : |v.toInt| + (l.map (fun a => |(f a).toInt|)).sum ≤ I64_MAX) :
    (l.foldl (fun acc a => saturating_add_i64 acc (f a)) v).toInt
      = v.toInt + (l.map (fun a => (f a).toInt)).sum := by
  have habs : (l.map (fun a => |(f a).toInt|)).sum = positive f l + negative f l := by
    have hone : ∀ a : α, |(f a).toInt| = max (f a).toInt 0 + max (-(f a).toInt) 0 := by
      intro a
      rcases abs_cases (f a).toInt with ⟨habs, h⟩ | ⟨habs, h⟩ <;> omega
    rw [positive, negative, ← List.sum_map_add]
    exact congrArg List.sum (List.map_congr_left (fun a _ => hone a))
  have hpos := positive_nonneg f l
  have hneg := negative_nonneg f l
  have hv := abs_le.mp (le_refl |v.toInt|)
  have hrange : I64_MIN ≤ -I64_MAX := by decide
  exact foldl_exact f l v (by omega) (by omega)

/-- Values of one sign saturate at most once, and stay there. -/
theorem foldl_one_sign (l : List α) (v : Int64) (h : positive f l = 0 ∨ negative f l = 0) :
    (l.foldl (fun acc a => saturating_add_i64 acc (f a)) v).toInt
      = clamp_i64 (v.toInt + (l.map (fun a => (f a).toInt)).sum) := by
  induction l generalizing v with
  | nil =>
    have hlo := v.le_toInt
    have hhi := v.toInt_lt
    simp only [List.foldl_nil, List.map_nil, List.sum_nil, clamp_i64, I64_MIN, I64_MAX]
    omega
  | cons a l ih =>
    have hpos := positive_nonneg f l
    have hneg := negative_nonneg f l
    have hsum := sum_eq_positive_sub f l
    have hcons : positive f (a :: l) = max (f a).toInt 0 + positive f l
        ∧ negative f (a :: l) = max (-(f a).toInt) 0 + negative f l := ⟨rfl, rfl⟩
    have hlo := v.le_toInt
    have hhi := v.toInt_lt
    rw [hcons.1, hcons.2] at h
    -- the rest has the sign of the first value, so once clamped the sum stays clamped
    rw [List.foldl_cons, ih _ (by omega), saturating_add_i64_toInt, List.map_cons, List.sum_cons,
      hsum]
    simp only [clamp_i64, I64_MIN, I64_MAX]
    omega

/-- The fold of some values and then others that are of one sign each. -/
theorem foldl_two_signs (l l' : List α) (h : positive f l = 0 ∨ negative f l = 0)
    (h' : positive f l' = 0 ∨ negative f l' = 0) :
    ((l ++ l').foldl (fun acc a => saturating_add_i64 acc (f a)) 0).toInt
      = clamp_i64 (clamp_i64 (l.map (fun a => (f a).toInt)).sum
          + (l'.map (fun a => (f a).toInt)).sum) := by
  rw [List.foldl_append, foldl_one_sign f l' _ h', foldl_one_sign f l 0 h, Int64.toInt_zero,
    zero_add]

theorem positive_perm {l l' : List α} (h : l.Perm l') : positive f l = positive f l' :=
  (h.map _).sum_eq

theorem negative_perm {l l' : List α} (h : l.Perm l') : negative f l = negative f l' :=
  (h.map _).sum_eq

/-- The values of a list without those of one sign. -/
theorem positive_filter (l : List α) :
    positive f (l.filter (fun a => 0 < (f a).toInt)) = positive f l
      ∧ negative f (l.filter (fun a => 0 < (f a).toInt)) = 0
      ∧ positive f (l.filter (fun a => ¬ 0 < (f a).toInt)) = 0
      ∧ negative f (l.filter (fun a => ¬ 0 < (f a).toInt)) = negative f l := by
  induction l with
  | nil => exact ⟨rfl, rfl, rfl, rfl⟩
  | cons a l ih =>
    obtain ⟨h₁, h₂, h₃, h₄⟩ := ih
    by_cases ha : 0 < (f a).toInt
    · rw [List.filter_cons_of_pos (by simpa using ha), List.filter_cons_of_neg (by simpa using ha)]
      simp only [positive, negative, List.map_cons, List.sum_cons] at h₁ h₂ h₃ h₄ ⊢
      omega
    · rw [List.filter_cons_of_neg (by simpa using ha), List.filter_cons_of_pos (by simpa using ha)]
      simp only [positive, negative, List.map_cons, List.sum_cons] at h₁ h₂ h₃ h₄ ⊢
      omega

/-- The fold is the clamped sum in every order exactly when no partial sum of any order leaves the
range, or all values have one sign. -/
theorem foldl_clamped_iff (l : List α) :
    (∀ l' : List α, l'.Perm l → (l'.foldl (fun acc a => saturating_add_i64 acc (f a)) 0).toInt
        = clamp_i64 (l.map (fun a => (f a).toInt)).sum)
      ↔ (positive f l ≤ I64_MAX ∧ negative f l ≤ -I64_MIN)
        ∨ positive f l = 0 ∨ negative f l = 0 := by
  have hsum := sum_eq_positive_sub f l
  constructor
  · intro hall
    obtain ⟨hpos, hpos', hneg', hneg⟩ := positive_filter f l
    have hperm := List.filter_append_perm (fun a => decide (0 < (f a).toInt)) l
    have hfilter : (l.filter fun a => !decide (0 < (f a).toInt))
        = l.filter (fun a => ¬ 0 < (f a).toInt) := List.filter_congr (fun a _ => decide_not.symm)
    rw [hfilter] at hperm
    -- first all positive values, and first all negative ones
    have hup := hall _ hperm
    have hdown := hall _ (List.perm_append_comm.trans hperm)
    rw [foldl_two_signs f _ _ (.inr hpos') (.inl hneg'), hsum, sum_eq_positive_sub f,
      sum_eq_positive_sub f, hpos, hpos', hneg', hneg] at hup
    rw [foldl_two_signs f _ _ (.inl hneg') (.inr hpos'), hsum, sum_eq_positive_sub f,
      sum_eq_positive_sub f, hpos, hpos', hneg', hneg] at hdown
    have hp := positive_nonneg f l
    have hn := negative_nonneg f l
    simp only [clamp_i64, I64_MIN, I64_MAX] at hup hdown ⊢
    omega
  · intro hfits l' hl'
    have hvalues := (hl'.map (fun a => (f a).toInt)).sum_eq
    rw [← hvalues]
    rw [← positive_perm f hl', ← negative_perm f hl'] at hfits
    rcases hfits with ⟨hp, hn⟩ | hone
    · have hp' := positive_nonneg f l'
      have hn' := negative_nonneg f l'
      have hsum' := sum_eq_positive_sub f l'
      rw [foldl_exact f l' 0 (by rw [Int64.toInt_zero]; omega) (by rw [Int64.toInt_zero]; omega),
        Int64.toInt_zero, zero_add]
      simp only [clamp_i64, I64_MIN, I64_MAX] at hp hn ⊢
      omega
    · rw [foldl_one_sign f l' 0 hone, Int64.toInt_zero, zero_add]

end Fold

/-! ## Casts between words and signed integers -/

/-- `bits as i64` is the signed integer with these bits. -/
theorem toInt64_emod (bits : UInt64) : bits.toInt64.toInt % 2 ^ 64 = (bits.toNat : ℤ) := by
  have hlt := bits.toNat_lt
  have hmod := @Int.bmod_emod bits.toNat (2 ^ 64)
  rw [show bits.toInt64.toInt = bits.toBitVec.toInt from rfl, BitVec.toInt_eq_toNat_bmod,
    UInt64.toNat_toBitVec]
  omega

/-- `value as u64` has the bits of a signed integer. -/
theorem toUInt64_toNat (value : Int64) : (value.toUInt64.toNat : ℤ) = value.toInt % 2 ^ 64 := by
  rw [← toInt64_emod, show value.toUInt64.toInt64 = value from rfl]

end BrzMetrics
