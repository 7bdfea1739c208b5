/-
Plain decimal numerals: an optional sign, digits, and optionally a point and
more digits. This is what Rust prints for integers and for finite floats, and
what the value of a sample is written as.
-/
import BrzMetrics.Bytes

set_option autoImplicit false

namespace BrzMetrics

/-- A plain decimal numeral. -/
structure Decimal where
  neg : Bool
  int : ℕ
  frac : List (Fin 10)
deriving DecidableEq, Repr

namespace Decimal

/-- The digits after the point, as characters. -/
def fracChars (frac : List (Fin 10)) : List Char := frac.map (fun d => Nat.digitChar d.val)

/-- The characters of a numeral. -/
def chars (self : Decimal) : List Char :=
  (if self.neg then ['-'] else []) ++ Nat.toDigits 10 self.int
    ++ (if self.frac = [] then [] else '.' :: fracChars self.frac)

/-- The text of a numeral. -/
def text (self : Decimal) : String := String.ofList self.chars

/-- The number a list of digits after the point stands for, as a numerator over `10 ^ length`. -/
def fracNat (frac : List (Fin 10)) : ℕ := frac.foldl (fun n d => 10 * n + d) 0

/-- The number a numeral denotes. -/
def toRat (self : Decimal) : ℚ :=
  (if self.neg then -1 else 1)
    * (self.int + fracNat self.frac / 10 ^ self.frac.length)

/-- The numeral of a natural number. -/
def ofNat (n : ℕ) : Decimal := { neg := false, int := n, frac := [] }

/-- The numeral of an integer. -/
def ofInt (i : ℤ) : Decimal := { neg := decide (i < 0), int := i.natAbs, frac := [] }

/-- The numeral of `n` hundredths, with two digits after the point. -/
def ofHundredths (n : ℕ) : Decimal where
  neg := false
  int := n / 100
  frac := [⟨n % 100 / 10, by omega⟩, ⟨n % 10, by omega⟩]

/-! ## Reading a numeral -/

/-- The value of a decimal digit. -/
def digit (c : Char) : Option (Fin 10) :=
  if h : 48 ≤ c.toNat ∧ c.toNat < 58 then some ⟨c.toNat - 48, by omega⟩ else none

/-- The numeral after its sign. -/
def parse_unsigned (neg : Bool) (cs : List Char) : Option Decimal :=
  let int := cs.takeWhile Char.isDigit
  if int = [] then none
  else match cs.dropWhile Char.isDigit with
    | [] => some { neg := neg, int := Nat.ofDigitChars 10 int 0, frac := [] }
    | c :: frac =>
      if c = '.' ∧ frac ≠ [] then
        (frac.mapM digit).map
          (fun frac => { neg := neg, int := Nat.ofDigitChars 10 int 0, frac := frac })
      else none

/-- Read a numeral. -/
def parse_chars (cs : List Char) : Option Decimal :=
  match cs with
  | '-' :: cs => parse_unsigned true cs
  | cs => parse_unsigned false cs

/-- Read a numeral. -/
def parse (s : String) : Option Decimal := parse_chars s.toList

theorem digit_digitChar : ∀ d : Fin 10, digit (Nat.digitChar d.val) = some d := by decide

theorem mapM_digit (frac : List (Fin 10)) : (fracChars frac).mapM digit = some frac := by
  induction frac with
  | nil => rfl
  | cons d frac ih =>
    rw [fracChars, List.map_cons, List.mapM_cons, digit_digitChar, ← fracChars, ih]
    rfl

theorem isDigit_of_mem_toDigits {n : ℕ} {c : Char} (h : c ∈ Nat.toDigits 10 n) :
    c.isDigit = true := Nat.isDigit_of_mem_toDigits (by decide) (by decide) h

/-- Reading the digits of a numeral stops where they end. -/
theorem parse_unsigned_chars (self : Decimal) :
    parse_unsigned self.neg (Nat.toDigits 10 self.int
      ++ (if self.frac = [] then [] else '.' :: fracChars self.frac)) = some self := by
  have hdigits : ∀ c ∈ Nat.toDigits 10 self.int, c.isDigit = true :=
    fun c hc => isDigit_of_mem_toDigits hc
  obtain ⟨neg, int, frac⟩ := self
  by_cases hfrac : frac = []
  · subst hfrac
    simp only [if_true, List.append_nil] at hdigits ⊢
    rw [parse_unsigned, List.takeWhile_eq_self_iff.mpr hdigits,
      List.dropWhile_eq_nil_iff.mpr hdigits, if_neg Nat.toDigits_ne_nil]
    simp
  · have hpoint : ('.' : Char).isDigit = false := by decide
    have hne : fracChars frac ≠ [] := by simpa [fracChars] using hfrac
    simp only [if_neg hfrac] at hdigits ⊢
    rw [parse_unsigned, List.takeWhile_append_of_pos hdigits,
      List.dropWhile_append_of_pos hdigits, List.takeWhile_cons, List.dropWhile_cons]
    simp only [hpoint, Bool.false_eq_true, if_false, List.append_nil]
    rw [if_neg Nat.toDigits_ne_nil, if_pos ⟨trivial, hne⟩, mapM_digit]
    simp

/-- Reading undoes writing. -/
theorem parse_chars_chars (self : Decimal) : parse_chars self.chars = some self := by
  rw [chars]
  cases hneg : self.neg with
  | true =>
    simp only [if_true, List.cons_append, List.nil_append]
    rw [parse_chars, ← hneg]
    exact parse_unsigned_chars self
  | false =>
    simp only [Bool.false_eq_true, if_false, List.nil_append]
    -- without a sign the first character is a digit, so none is taken for one
    have hsign : ∀ cs : List Char, cs.head? ≠ some '-' →
        parse_chars cs = parse_unsigned false cs := by
      intro cs hcs
      unfold parse_chars
      split
      · simp at hcs
      · rfl
    rw [hsign, ← hneg]
    · exact parse_unsigned_chars self
    · rw [List.head?_append]
      cases hd : Nat.toDigits 10 self.int with
      | nil => exact absurd hd Nat.toDigits_ne_nil
      | cons c cs =>
        have hc := isDigit_of_mem_toDigits (n := self.int) (c := c) (by rw [hd]; simp)
        intro h
        have : c = '-' := by simpa using h
        rw [this] at hc
        exact absurd hc (by decide)

/-- Reading undoes writing. -/
@[simp] theorem parse_text (self : Decimal) : parse self.text = some self := by
  rw [parse, text, String.toList_ofList, parse_chars_chars]

/-- A numeral is written in digits, a minus sign and a point. -/
theorem mem_bytes_text {self : Decimal} {b : UInt8} (h : b ∈ bytes self.text) :
    b = 45 ∨ b = 46 ∨ 48 ≤ b.toNat ∧ b.toNat < 58 := by
  -- the numeral's characters, all of them ASCII
  have hplain : ∀ c ∈ self.chars, c = '-' ∨ c = '.' ∨ c.isDigit = true := by
    intro c hc
    simp only [chars, List.mem_append] at hc
    rcases hc with (hc | hc) | hc
    · left
      cases hneg : self.neg <;> simp_all
    · exact .inr (.inr (isDigit_of_mem_toDigits hc))
    · by_cases hfrac : self.frac = []
      · simp [hfrac] at hc
      · rw [if_neg hfrac, List.mem_cons] at hc
        rcases hc with hc | hc
        · exact .inr (.inl hc)
        · obtain ⟨d, -, rfl⟩ := List.mem_map.mp hc
          rw [Nat.isDigit_digitChar, decide_eq_true_iff]
          exact .inr (.inr d.isLt)
  rw [text, bytes_ofList] at h
  obtain ⟨c, hc, hb⟩ := List.mem_flatMap.mp h
  -- such a character is its own encoding
  have hcode : c.toNat < 128 → b.toNat = c.toNat := by
    intro hlt
    rcases mem_utf8EncodeChar hb with ⟨-, -, rfl⟩ | hge
    · rw [UInt8.toNat_ofNat']
      omega
    · rw [String.utf8EncodeChar, if_pos (by change c.toNat ≤ 127; omega), List.mem_singleton] at hb
      rw [hb, UInt8.toNat_ofNat']
      change c.toNat % 256 = c.toNat
      omega
  rcases hplain c hc with rfl | rfl | hdigit
  · exact .inl (UInt8.toNat_inj.mp (hcode (by decide)))
  · exact .inr (.inl (UInt8.toNat_inj.mp (hcode (by decide))))
  · have hrange : 48 ≤ c.toNat ∧ c.toNat ≤ 57 := by
      simp only [Char.isDigit, Bool.and_eq_true, decide_eq_true_eq] at hdigit
      exact ⟨hdigit.1, hdigit.2⟩
    rw [hcode (by omega)]
    exact .inr (.inr (by omega))

/-! ## Numerals of numbers -/

theorem ofNat_text (n : ℕ) : (ofNat n).text = toString n := by
  simp [ofNat, text, chars, Nat.repr_eq_ofList_toDigits]

theorem ofInt_text (i : ℤ) : (ofInt i).text = toString i := by
  cases i with
  | ofNat n =>
    have hneg : ¬ (Int.ofNat n < 0) := by simp
    simp only [ofInt, text, chars, hneg, decide_false, Bool.false_eq_true, if_false,
      List.nil_append, if_true, List.append_nil]
    rw [← Nat.toString_eq_ofList_toDigits]
    rfl
  | negSucc n =>
    have hneg : Int.negSucc n < 0 := Int.negSucc_lt_zero n
    simp only [ofInt, text, chars, hneg, decide_true, if_true, List.append_nil]
    rw [String.ofList_append, Int.natAbs_negSucc, ← Nat.toString_eq_ofList_toDigits]
    rfl

end Decimal

end BrzMetrics
