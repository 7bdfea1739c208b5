/-
Strings as bytes.

A string is its UTF-8 encoding. `bytes` lists it, `byte_rank` is the key that orders
strings by their bytes (the order of Rust's `str`), and `IsText` says that a byte
list is the encoding of some string, that is, valid UTF-8.
-/
import Mathlib

set_option autoImplicit false

namespace BrzMetrics

/-- The UTF-8 bytes of a string, in order. -/
def bytes (s : String) : List UInt8 := s.toByteArray.data.toList

@[simp] theorem bytes_append (s t : String) : bytes (s ++ t) = bytes s ++ bytes t := by
  simp [bytes, String.toByteArray_append]

theorem bytes_injective : Function.Injective bytes := by
  intro s t h
  have hdata : s.toByteArray.data = t.toByteArray.data := Array.toList_inj.mp h
  exact String.toByteArray_inj.mp (ByteArray.ext hdata)

@[simp] theorem bytes_inj {s t : String} : bytes s = bytes t ↔ s = t := bytes_injective.eq_iff

/-- The string with the given bytes, if they are valid UTF-8. -/
def text_of (bs : List UInt8) : Option String := String.fromUTF8? ⟨bs.toArray⟩

@[simp] theorem text_of_bytes (s : String) : text_of (bytes s) = some s := by
  have hbytes : (⟨(bytes s).toArray⟩ : ByteArray) = s.toByteArray := rfl
  rw [text_of, hbytes, String.fromUTF8?, dif_pos s.isValidUTF8]
  rfl

/-- The order of `str`: byte by byte. -/
def byte_rank (s : String) : List ℕ := (bytes s).map UInt8.toNat

theorem byte_rank_injective : Function.Injective byte_rank := by
  intro s t h
  have hmap : (bytes s).map UInt8.toNat = (bytes t).map UInt8.toNat := h
  exact bytes_injective (List.map_injective_iff.mpr (fun _ _ => UInt8.toNat_inj.mp) hmap)

/-- Bytes of a character list, character by character. -/
theorem bytes_ofList (cs : List Char) :
    bytes (String.ofList cs) = cs.flatMap String.utf8EncodeChar := by
  simp [bytes, String.toByteArray_ofList, List.utf8Encode]

theorem bytes_eq_flatMap (s : String) : bytes s = s.toList.flatMap String.utf8EncodeChar := by
  rw [← bytes_ofList, String.ofList_toList]

/-! ## Valid UTF-8 -/

/-- The bytes are the encoding of a string. -/
def IsText (bs : List UInt8) : Prop := ∃ s : String, bytes s = bs

theorem isText_bytes (s : String) : IsText (bytes s) := ⟨s, rfl⟩

theorem isText_nil : IsText [] := ⟨"", by decide⟩

theorem IsText.append {as bs : List UInt8} (ha : IsText as) (hb : IsText bs) :
    IsText (as ++ bs) := by
  obtain ⟨s, rfl⟩ := ha
  obtain ⟨t, rfl⟩ := hb
  exact ⟨s ++ t, bytes_append s t⟩

theorem IsText.flatten {bss : List (List UInt8)} (h : ∀ bs ∈ bss, IsText bs) :
    IsText bss.flatten := by
  induction bss with
  | nil => exact isText_nil
  | cons bs bss ih =>
    rw [List.flatten_cons]
    exact (h bs List.mem_cons_self).append (ih (fun b hb => h b (List.mem_cons_of_mem _ hb)))

/-- A byte of an encoded character is the character's own code, below 128, or at least 128. -/
theorem mem_utf8EncodeChar {c : Char} {b : UInt8} (hb : b ∈ String.utf8EncodeChar c) :
    (c.toNat < 128 ∧ String.utf8EncodeChar c = [UInt8.ofNat c.toNat] ∧ b = UInt8.ofNat c.toNat)
      ∨ 128 ≤ b.toNat := by
  have hc : c.val.toNat = c.toNat := rfl
  unfold String.utf8EncodeChar at hb ⊢
  simp only [hc] at hb ⊢
  split_ifs at hb ⊢ with h1 h2 h3
  · left
    refine ⟨by omega, rfl, by simpa using hb⟩
  all_goals
    right
    simp only [List.mem_cons, List.not_mem_nil, or_false] at hb
    rcases hb with rfl | rfl | rfl | rfl <;> rw [UInt8.toNat_ofNat'] <;> omega

end BrzMetrics
