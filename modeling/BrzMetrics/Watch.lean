/-
Observers of a machine.

An observer takes looks at a machine while the machine goes on. A look may depend on
the state it finds, and leaves the machine alone; so the moves of a watched machine
are a schedule of the machine by itself (`run_moves`), and between its looks any
number of moves may have been made.

What an observer knows after each of its looks is shown by `run_induct`: it has to
survive the moves of the machine, and each look adds to it what the state at that
moment has to show.
-/
import Mathlib

set_option autoImplicit false

namespace BrzMetrics.Watch

variable {S M O : Type}

/-- One turn: a move of the machine, or (`none`) a look of the observer. -/
def step (move : S → M → Option S) (look : S → O → Option O) (x : S × O) :
    Option M → Option (S × O)
  | some m => (move x.1 m).map (fun s => (s, x.2))
  | none => (look x.1 x.2).map (fun o => (x.1, o))

/-- Turns, one after the other. -/
def run (move : S → M → Option S) (look : S → O → Option O) (x : S × O)
    (turns : List (Option M)) : Option (S × O) :=
  turns.foldlM (step move look) x

section Run

variable {move : S → M → Option S} {look : S → O → Option O} {x y : S × O}
  {turns : List (Option M)}

theorem run_append_singleton {turn : Option M} (h : run move look x (turns ++ [turn]) = some y) :
    ∃ z, run move look x turns = some z ∧ step move look z turn = some y := by
  rw [run, List.foldlM_append] at h
  obtain ⟨z, hz, hstep⟩ := Option.bind_eq_some_iff.mp h
  simp only [List.foldlM_cons, List.foldlM_nil, bind_pure] at hstep
  exact ⟨z, hz, hstep⟩

theorem reduceOption_append_singleton (turns : List (Option M)) (turn : Option M) :
    (turns ++ [turn]).reduceOption = turns.reduceOption ++ turn.toList := by
  cases turn <;> simp [List.reduceOption]

/-- Looks leave the machine alone. -/
theorem run_moves (h : run move look x turns = some y) :
    turns.reduceOption.foldlM move x.1 = some y.1 := by
  induction turns using List.reverseRecOn generalizing y with
  | nil =>
    obtain rfl : x = y := Option.some.inj h
    rfl
  | append_singleton turns turn ih =>
    obtain ⟨z, hz, hstep⟩ := run_append_singleton h
    rw [reduceOption_append_singleton, List.foldlM_append, ih hz]
    cases turn with
    | some m =>
      obtain ⟨s, hs, rfl⟩ := Option.map_eq_some_iff.mp hstep
      simpa using hs
    | none =>
      obtain ⟨o, -, rfl⟩ := Option.map_eq_some_iff.mp hstep
      rfl

/-- What holds of an observer that has begun, survives the moves of the machine, and is kept by the
looks at the states of the machine, holds of it in the end. -/
theorem run_induct {state : ℕ → S} {P : ℕ → O → Prop} (h : run move look x turns = some y)
    (hstate : ∀ k ≤ turns.reduceOption.length,
      (turns.reduceOption.take k).foldlM move x.1 = some (state k))
    (hbegin : P 0 x.2)
    (hmove : ∀ k o m, turns.reduceOption[k]? = some m →
      move (state k) m = some (state (k + 1)) → P k o → P (k + 1) o)
    (hlook : ∀ k o o', k ≤ turns.reduceOption.length →
      look (state k) o = some o' → P k o → P k o') :
    P turns.reduceOption.length y.2 := by
  induction turns using List.reverseRecOn generalizing y with
  | nil =>
    obtain rfl : x = y := Option.some.inj h
    exact hbegin
  | append_singleton turns turn ih =>
    obtain ⟨z, hz, hstep⟩ := run_append_singleton h
    rw [reduceOption_append_singleton] at hstate hmove hlook ⊢
    have hlength : turns.reduceOption.length ≤ (turns.reduceOption ++ turn.toList).length := by
      rw [List.length_append]
      exact Nat.le_add_right _ _
    have htake : ∀ k ≤ turns.reduceOption.length,
        (turns.reduceOption.take k).foldlM move x.1 = some (state k) := by
      intro k hk
      have := hstate k (hk.trans hlength)
      rwa [List.take_append_of_le_length hk] at this
    have hbefore := ih hz htake
      (fun k o m hm => hmove k o m (by
        rw [List.getElem?_append_left (List.getElem?_eq_some_iff.mp hm).1, hm]))
      (fun k o o' hk => hlook k o o' (hk.trans hlength))
    -- the state that the last turn finds
    have hhere : z.1 = state turns.reduceOption.length := by
      have := htake _ le_rfl
      rw [List.take_length, run_moves hz] at this
      exact Option.some.inj this
    cases turn with
    | some m =>
      obtain ⟨s, hs, rfl⟩ := Option.map_eq_some_iff.mp hstep
      have hnext := hstate _ le_rfl
      rw [List.take_length, List.foldlM_append, run_moves hz] at hnext
      have hlast : s = state (turns.reduceOption.length + 1) := by
        have hmove' : move z.1 m = some (state (turns.reduceOption.length + 1)) := by
          simpa using hnext
        exact Option.some.inj (hs.symm.trans hmove')
      rw [hhere, hlast] at hs
      rw [List.length_append]
      exact hmove _ _ m (by simp) hs hbefore
    | none =>
      obtain ⟨o, ho, rfl⟩ := Option.map_eq_some_iff.mp hstep
      rw [hhere] at ho
      rw [Option.toList_none, List.append_nil] at hlook ⊢
      exact hlook _ _ _ le_rfl ho hbefore

end Run

end BrzMetrics.Watch
