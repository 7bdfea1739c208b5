/-
Exclusive places, and runs that get somewhere.

A place is held by at most one client at a time. The clients know where they are and for
what, and a place only knows for what it is held; `Exclusive` says that the two agree. It
is kept when a client takes a free place and when it leaves.

That a client gets through is a statement about a measure: as long as the goal is
not reached there is a move that helps, and every such move has a smaller measure
(`exists_completion`).
-/
import Mathlib

set_option autoImplicit false

namespace BrzMetrics.Exclusion

section Exclusive

variable {Client Place Tag : Type*} {at_place : Client → Option (Place × Tag)}
  {held : Place → Option Tag}

/-- A place is held, and for what, exactly when a client is there for that; and never by two. -/
structure Exclusive (at_place : Client → Option (Place × Tag)) (held : Place → Option Tag) :
    Prop where
  held_iff : ∀ x tag, held x = some tag ↔ ∃ t, at_place t = some (x, tag)
  unique : ∀ {t u x a b}, at_place t = some (x, a) → at_place u = some (x, b) → t = u

/-- Nobody is anywhere. -/
theorem exclusive_none :
    Exclusive (fun _ : Client => (none : Option (Place × Tag))) (fun _ => none) where
  held_iff := fun x tag => by simp
  unique := fun h _ => by cases h

/-- Nobody is at a free place. -/
theorem Exclusive.ne_of_free (h : Exclusive at_place held) {t : Client} {x : Place} {tag : Tag}
    (hfree : held x = none) : at_place t ≠ some (x, tag) := by
  intro ht
  rw [(h.held_iff x tag).mpr ⟨t, ht⟩] at hfree
  cases hfree

variable [DecidableEq Client]

/-- A client that stays where it is. -/
theorem Exclusive.stay (h : Exclusive at_place held) {t : Client} {place : Option (Place × Tag)}
    (hplace : place = at_place t) : Exclusive (Function.update at_place t place) held := by
  rw [hplace, Function.update_eq_self]
  exact h

variable [DecidableEq Place]

/-- A client takes a free place. -/
theorem Exclusive.acquire (h : Exclusive at_place held) {t : Client} (x : Place) (tag : Tag)
    (hout : at_place t = none) (hfree : held x = none) :
    Exclusive (Function.update at_place t (some (x, tag)))
      (Function.update held x (some tag)) := by
  have hother : ∀ {u y a}, Function.update at_place t (some (x, tag)) u = some (y, a) →
      (u = t ∧ y = x ∧ a = tag) ∨ (at_place u = some (y, a) ∧ y ≠ x) := by
    intro u y a hu
    by_cases hut : u = t
    · subst hut
      rw [Function.update_self, Option.some.injEq, Prod.mk.injEq] at hu
      exact .inl ⟨rfl, hu.1.symm, hu.2.symm⟩
    · rw [Function.update_of_ne hut] at hu
      -- whoever is somewhere else is at another place, for this one was free
      exact .inr ⟨hu, fun hyx => h.ne_of_free hfree (hyx ▸ hu)⟩
  refine ⟨fun y a => ?_, fun {u v y a b} hu hv => ?_⟩
  · by_cases hyx : y = x
    · subst hyx
      rw [Function.update_self, Option.some.injEq]
      constructor
      · rintro rfl
        exact ⟨t, Function.update_self _ _ _⟩
      · rintro ⟨u, hu⟩
        rcases hother hu with ⟨-, -, ha⟩ | ⟨-, hne⟩
        · exact ha.symm
        · exact absurd rfl hne
    · rw [Function.update_of_ne hyx, h.held_iff]
      constructor
      · rintro ⟨u, hu⟩
        refine ⟨u, ?_⟩
        rw [Function.update_of_ne (fun hut => by rw [hut, hout] at hu; cases hu), hu]
      · rintro ⟨u, hu⟩
        rcases hother hu with ⟨-, hy, -⟩ | ⟨hu, -⟩
        · exact absurd hy hyx
        · exact ⟨u, hu⟩
  · rcases hother hu with ⟨hu, hy, -⟩ | ⟨hu, hy⟩ <;>
      rcases hother hv with ⟨hv, hy', -⟩ | ⟨hv, hy'⟩
    · rw [hu, hv]
    · exact absurd hy hy'
    · exact absurd hy' hy
    · exact h.unique hu hv

/-- A client leaves its place. -/
theorem Exclusive.release (h : Exclusive at_place held) {t : Client} {x : Place} {tag : Tag}
    (hin : at_place t = some (x, tag)) :
    Exclusive (Function.update at_place t none) (Function.update held x none) := by
  have hother : ∀ {u y a}, Function.update at_place t none u = some (y, a) →
      u ≠ t ∧ at_place u = some (y, a) := by
    intro u y a hu
    by_cases hut : u = t
    · subst hut
      rw [Function.update_self] at hu
      cases hu
    · rw [Function.update_of_ne hut] at hu
      exact ⟨hut, hu⟩
  refine ⟨fun y a => ?_, fun {u v y a b} hu hv => h.unique (hother hu).2 (hother hv).2⟩
  by_cases hyx : y = x
  · subst hyx
    rw [Function.update_self]
    refine ⟨fun hsome => absurd hsome (Option.some_ne_none a).symm, ?_⟩
    rintro ⟨u, hu⟩
    exact absurd (h.unique (hother hu).2 hin) (hother hu).1
  · rw [Function.update_of_ne hyx, h.held_iff]
    constructor
    · rintro ⟨u, hu⟩
      refine ⟨u, ?_⟩
      rwa [Function.update_of_ne]
      rintro rfl
      rw [hin, Option.some.injEq, Prod.mk.injEq] at hu
      exact hyx hu.1.symm
    · rintro ⟨u, hu⟩
      exact ⟨u, (hother hu).2⟩

end Exclusive

/-! ## Getting there -/

/-- As long as the goal is not reached a move that helps can be made, which lowers the measure. So
the goal is reached by such moves, and by no more of them than the measure. -/
theorem exists_completion {State Move : Type*} (step : State → Move → Option State)
    (Inv Goal : State → Prop) (helps : Move → Prop) (measure : State → ℕ)
    (hstep : ∀ s, Inv s → ¬ Goal s →
      ∃ move s', helps move ∧ step s move = some s' ∧ Inv s' ∧ measure s' < measure s)
    {s : State} (h : Inv s) :
    ∃ (moves : List Move) (s' : State), (∀ move ∈ moves, helps move)
      ∧ moves.foldlM step s = some s'
      ∧ moves.length ≤ measure s ∧ Inv s' ∧ Goal s' := by
  induction hm : measure s using Nat.strong_induction_on generalizing s with
  | _ m ih =>
    by_cases hgoal : Goal s
    · exact ⟨[], s, fun _ hmove => absurd hmove List.not_mem_nil, rfl, Nat.zero_le _, h, hgoal⟩
    · obtain ⟨move, t, hhelps, ht, hinv, hlt⟩ := hstep s h hgoal
      obtain ⟨moves, s', hmoves, hs', hlength, hend⟩ := ih (measure t) (hm ▸ hlt) hinv rfl
      refine ⟨move :: moves, s', ?_, ?_, ?_, hend⟩
      · intro a ha
        rcases List.mem_cons.mp ha with rfl | ha
        · exact hhelps
        · exact hmoves a ha
      · rw [List.foldlM_cons, ht]
        exact hs'
      · rw [List.length_cons]
        omega

end BrzMetrics.Exclusion
