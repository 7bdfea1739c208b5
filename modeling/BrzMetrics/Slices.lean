/-
Cutting a stream into pieces of given sizes.

`slices sizes stream` is what a sequence of calls gets out of a stream, when the
call with size `n` gets the next `n` elements, or all that are left. Its lemmas
say that nothing is lost, repeated or reordered: the pieces put together are the
front of the stream, and an empty piece for a positive size marks its end.
-/
import Mathlib

set_option autoImplicit false

namespace BrzMetrics.Slices

variable {β : Type*}

/-- Take the sizes one after the other from the front of the stream. -/
def slices : List ℕ → List β → List (List β)
  | [], _ => []
  | n :: sizes, stream => stream.take n :: slices sizes (stream.drop n)

@[simp] theorem length_slices (sizes : List ℕ) (stream : List β) :
    (slices sizes stream).length = sizes.length := by
  induction sizes generalizing stream with
  | nil => rfl
  | cons n sizes ih => rw [slices, List.length_cons, ih, List.length_cons]

/-- The pieces together are the front of the stream. -/
theorem flatten_slices (sizes : List ℕ) (stream : List β) :
    (slices sizes stream).flatten = stream.take sizes.sum := by
  induction sizes generalizing stream with
  | nil => simp [slices]
  | cons n sizes ih =>
    rw [slices, List.flatten_cons, ih, List.sum_cons, List.take_add]

theorem take_slices (sizes : List ℕ) (stream : List β) (i : ℕ) :
    (slices sizes stream).take i = slices (sizes.take i) stream := by
  induction sizes generalizing stream i with
  | nil => simp [slices]
  | cons n sizes ih =>
    cases i with
    | zero => rfl
    | succ i => rw [slices, List.take_succ_cons, ih, List.take_succ_cons, slices]

/-- A piece starts where the sizes before it end. -/
theorem getElem_slices (sizes : List ℕ) (stream : List β) (i : ℕ) (h : i < sizes.length)
    (h' : i < (slices sizes stream).length) :
    (slices sizes stream)[i] = (stream.drop (sizes.take i).sum).take sizes[i] := by
  induction sizes generalizing stream i with
  | nil => exact absurd h (Nat.not_lt_zero _)
  | cons n sizes ih =>
    cases i with
    | zero => simp [slices]
    | succ i =>
      simp only [slices, List.getElem_cons_succ, List.take_succ_cons, List.sum_cons]
      rw [ih _ _ (Nat.lt_of_succ_lt_succ h), List.drop_drop]

/-- A piece is as long as its size and what is left of the stream allow. -/
theorem length_getElem_slices (sizes : List ℕ) (stream : List β) (i : ℕ) (h : i < sizes.length)
    (h' : i < (slices sizes stream).length) :
    ((slices sizes stream)[i]).length
      = min sizes[i] (stream.length - ((slices sizes stream).take i).flatten.length) := by
  rw [getElem_slices sizes stream i h, take_slices, flatten_slices, List.length_take,
    List.length_drop, List.length_take]
  omega

/-- After an empty piece for a positive size nothing is left. -/
theorem end_of_empty (sizes : List ℕ) (stream : List β) (i : ℕ) (h : i < sizes.length)
    (h' : i < (slices sizes stream).length) (hpos : 0 < sizes[i])
    (hempty : (slices sizes stream)[i] = []) :
    ((slices sizes stream).take i).flatten = stream
      ∧ ∀ j (_ : i ≤ j) (hj : j < (slices sizes stream).length), (slices sizes stream)[j] = [] := by
  have hlen := length_getElem_slices sizes stream i h h'
  rw [hempty, List.length_nil] at hlen
  rw [take_slices, flatten_slices] at hlen ⊢
  rw [List.length_take] at hlen
  have hend : stream.length ≤ (sizes.take i).sum := by omega
  refine ⟨List.take_of_length_le hend, fun j hij hj => ?_⟩
  have hjlen : j < sizes.length := by rwa [length_slices] at hj
  have hmono : (sizes.take i).sum ≤ (sizes.take j).sum :=
    (List.take_sublist_take_left hij).sum_le_sum (fun _ _ => Nat.zero_le _)
  rw [getElem_slices sizes stream j hjlen, List.drop_eq_nil_of_le (hend.trans hmono), List.take_nil]

end BrzMetrics.Slices
