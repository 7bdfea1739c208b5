/-
Interleavings of any number of sequences.

`Interleaves ls h` says that the history `h` arises from running the sequences
`ls` concurrently under some scheduler: at every step one sequence that is not
finished takes its next step. Running the sequences one after the other is the
case `Interleaves.sequential`. A history consists of the steps of all sequences,
in some order (`Interleaves.perm`), so whatever is independent of the order can be
computed sequence by sequence.

Where it matters how far each sequence has come, the steps are tagged with their
program: `Concurrent programs steps` says that the steps with the tag of a program
are the beginning of it (`progress`). Every beginning of a concurrent run is one,
and what its steps add up to is what the programs' progress adds up to
(`sum_progress`).
-/
import Mathlib

set_option autoImplicit false

namespace BrzMetrics.Interleave

variable {α : Type*}

/-- The history is an interleaving of the sequences. -/
inductive Interleaves : List (List α) → List α → Prop where
  | done {ls : List (List α)} (hdone : ∀ l ∈ ls, l = []) : Interleaves ls []
  | step {before after : List (List α)} {a : α} {l h : List α}
      (hrest : Interleaves (before ++ l :: after) h) :
      Interleaves (before ++ (a :: l) :: after) (a :: h)

/-- A finished sequence takes no part. -/
theorem Interleaves.cons_nil {ls : List (List α)} {h : List α} (hls : Interleaves ls h) :
    Interleaves ([] :: ls) h := by
  induction hls with
  | done hdone =>
    refine .done (fun l hl => ?_)
    rcases List.mem_cons.mp hl with rfl | hl
    · rfl
    · exact hdone l hl
  | step _ ih =>
    rw [← List.cons_append] at ih ⊢
    exact .step ih

/-- One sequence after the other. -/
theorem Interleaves.sequential (ls : List (List α)) : Interleaves ls ls.flatten := by
  induction ls with
  | nil => exact .done (fun l hl => absurd hl List.not_mem_nil)
  | cons l ls ih =>
    rw [List.flatten_cons]
    induction l with
    | nil => exact ih.cons_nil
    | cons a l ihl => exact @Interleaves.step α [] ls a l _ ihl

/-- A history has exactly the steps of the sequences. -/
theorem Interleaves.perm {ls : List (List α)} {h : List α} (hls : Interleaves ls h) :
    h.Perm ls.flatten := by
  induction hls with
  | done hdone => rw [List.flatten_eq_nil_iff.mpr hdone]
  | @step before after a l h _ ih =>
    refine (ih.cons a).trans ?_
    simp only [List.flatten_append, List.flatten_cons, List.cons_append]
    exact List.perm_middle.symm

/-! ## Steps that know their program -/

section Concurrent

variable {ι : Type*} [DecidableEq ι]

/-- The steps of one program, in order. -/
def progress (steps : List (ι × α)) (i : ι) : List α :=
  (steps.filter (fun s => s.1 = i)).map Prod.snd

@[simp] theorem progress_nil (i : ι) : progress ([] : List (ι × α)) i = [] := rfl

theorem progress_cons (s : ι × α) (steps : List (ι × α)) (i : ι) :
    progress (s :: steps) i = if s.1 = i then s.2 :: progress steps i else progress steps i := by
  unfold progress
  rw [List.filter_cons]
  by_cases h : s.1 = i <;> simp [h]

@[simp] theorem progress_append (steps steps' : List (ι × α)) (i : ι) :
    progress (steps ++ steps') i = progress steps i ++ progress steps' i := by
  rw [progress, List.filter_append, List.map_append, progress, progress]

/-- A program only moves forward. -/
theorem progress_take (steps : List (ι × α)) (i : ι) {t u : ℕ} (h : t ≤ u) :
    progress (steps.take t) i <+: progress (steps.take u) i := by
  have hsplit : steps.take u = steps.take t ++ (steps.drop t).take (u - t) := by
    rw [← List.take_add, Nat.add_sub_cancel' h]
  rw [hsplit, progress_append]
  exact List.prefix_append _ _

/-- The steps run the programs concurrently, each of them from its beginning. -/
def Concurrent (programs : ι → List α) (steps : List (ι × α)) : Prop :=
  ∀ i, progress steps i <+: programs i

instance [Fintype ι] [DecidableEq α] (programs : ι → List α) (steps : List (ι × α)) :
    Decidable (Concurrent programs steps) :=
  inferInstanceAs (Decidable (∀ i, progress steps i <+: programs i))

/-- A concurrent run may be stopped at any point. -/
theorem Concurrent.take {programs : ι → List α} {steps : List (ι × α)}
    (h : Concurrent programs steps) (t : ℕ) : Concurrent programs (steps.take t) := by
  intro i
  refine List.IsPrefix.trans ?_ (h i)
  conv_rhs => rw [← List.take_append_drop t steps, progress_append]
  exact List.prefix_append _ _

/-- One program after the other. -/
def one_by_one {n : ℕ} (programs : Fin n → List α) : List (Fin n × α) :=
  (List.finRange n).flatMap (fun i => (programs i).map (Prod.mk i))

/-- Run one by one, every program is run to its end. -/
theorem progress_one_by_one {n : ℕ} (programs : Fin n → List α) (i : Fin n) :
    progress (one_by_one programs) i = programs i := by
  have hone : ∀ is : List (Fin n), is.Nodup →
      progress (is.flatMap (fun j => (programs j).map (Prod.mk j))) i
        = if i ∈ is then programs i else [] := by
    intro is his
    induction is with
    | nil => simp
    | cons j is ih =>
      obtain ⟨hj, his⟩ := List.nodup_cons.mp his
      have hhead : progress ((programs j).map (Prod.mk j)) i = if j = i then programs i else [] := by
        by_cases h : j = i
        · subst h
          simp [progress, List.filter_map, Function.comp_def]
        · simp [progress, List.filter_map, Function.comp_def, h]
      rw [List.flatMap_cons, progress_append, hhead, ih his]
      by_cases h : j = i
      · subst h
        simp [hj]
      · simp [h, Ne.symm h]
  rw [one_by_one, hone _ (List.nodup_finRange n), if_pos (List.mem_finRange i)]

/-- What the steps add up to is what every program has contributed. -/
theorem sum_progress [Fintype ι] {M : Type*} [AddCommMonoid M] (steps : List (ι × α)) (f : α → M) :
    (steps.map (fun s => f s.2)).sum = ∑ i, ((progress steps i).map f).sum := by
  induction steps with
  | nil => simp
  | cons s steps ih =>
    have hcons : ∀ i, ((progress (s :: steps) i).map f).sum
        = (if s.1 = i then f s.2 else 0) + ((progress steps i).map f).sum := by
      intro i
      rw [progress_cons]
      split_ifs
      · rw [List.map_cons, List.sum_cons]
      · rw [zero_add]
    rw [List.map_cons, List.sum_cons, ih, Finset.sum_congr rfl (fun i _ => hcons i),
      Finset.sum_add_distrib, Finset.sum_ite_eq, if_pos (Finset.mem_univ _)]

end Concurrent

end BrzMetrics.Interleave
