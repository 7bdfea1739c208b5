/-
Visitors beside a process.

`visit` and `len` go through the shards of a running process as the construction of
a reader does, and like it they disturb nobody. So they need not be part of the
process: a visitor of their own goes along with the shards of the process in a run of
`Traversals` that has the same shards (`Traversals.Shadows`). What is known of
traversals (`Traversals.Sound`) is thereby known of them.
-/
import BrzMetrics.Exports
import BrzMetrics.Watch

set_option autoImplicit false

namespace BrzMetrics

open ChunkLog KeyedStore

/-! ## Shards without their visitors -/

namespace Traversals

variable {σ T C K : Type} [ShardKind σ T C K]

/-- The same shards, with no traversal begun. -/
def unvisited (self : Traversals σ T K) : Traversals σ T K :=
  { lanes := self.lanes, visitors := fun _ => Visitor.new }

section Lanes

variable {s s' t t' : Traversals σ T K}

/-- A step of one shard does not depend on the traversals. -/
theorem on_lane_of_lanes {i : Fin SHARD_COUNT} {f : Lane σ T K → Option (Lane σ T K)}
    (hs : s.on_lane i f = some s') (ht : t.lanes = s.lanes) :
    t.on_lane i f = some { t with lanes := s'.lanes } := by
  obtain ⟨l, hl, rfl⟩ := Option.map_eq_some_iff.mp hs
  rw [on_lane, ht, hl]
  rfl

variable [DecidableEq K] {route : K → Fin SHARD_COUNT}

/-- Nor does a turn of a registration. -/
theorem step_of_lanes {turn : Turn C} (hs : s.step route turn = some s')
    (hturn : ∀ v, turn.visits v = false) (ht : t.lanes = s.lanes) :
    t.step route turn = some { t with lanes := s'.lanes } := by
  cases turn with
  | lock call => exact on_lane_of_lanes hs ht
  | access i => exact on_lane_of_lanes hs ht
  | unlock i => exact on_lane_of_lanes hs ht
  | visit v => exact absurd (hturn v) (by simp [Turn.visits])

/-- Whatever has become of some shards can become of the same shards without their traversals. -/
theorem run_unvisited {schedule : List (Turn C)} (hs : s.run route schedule = some s') :
    ∃ turns : List (Turn C), s.unvisited.run route turns = some s'.unvisited := by
  induction schedule generalizing s with
  | nil =>
    obtain rfl : s = s' := Option.some.inj hs
    exact ⟨[], rfl⟩
  | cons turn schedule ih =>
    rw [run, List.foldlM_cons] at hs
    obtain ⟨r, hr, hrest⟩ := Option.bind_eq_some_iff.mp hs
    obtain ⟨turns, hturns⟩ := ih hrest
    -- a turn is one of a registration, or it changes no shard
    have hcases : (∀ v, turn.visits v = false) ∨ r.lanes = s.lanes := by
      cases turn with
      | visit v => exact .inr (lanes_visit hr)
      | lock _ | access _ | unlock _ => exact .inl (fun _ => rfl)
    rcases hcases with hturn | hlanes
    · refine ⟨turn :: turns, ?_⟩
      have hstep : s.unvisited.step route turn = some r.unvisited := step_of_lanes hr hturn rfl
      rw [run, List.foldlM_cons, hstep]
      exact hturns
    · refine ⟨turns, ?_⟩
      rw [unvisited, ← hlanes]
      exact hturns

/-- In a run from `s` on visitor `v` has got to `visitor`, the shards are `lanes`, and no other
traversal has gone on. -/
def Shadows (C : Type) [ShardKind σ T C K] (route : K → Fin SHARD_COUNT) (s : Traversals σ T K)
    (v : ℕ) (lanes : Fin SHARD_COUNT → Lane σ T K) (visitor : Visitor T) : Prop :=
  ∃ (turns : List (Turn C)) (t : Traversals σ T K), s.run route turns = some t
    ∧ t.lanes = lanes ∧ t.visitors v = visitor ∧ ∀ w, w ≠ v → t.visitors w = s.visitors w

variable {v : ℕ} {lanes : Fin SHARD_COUNT → Lane σ T K} {visitor visitor' : Visitor T}

theorem run_append_singleton {turns : List (Turn C)} {turn : Turn C}
    (hs : s.run route turns = some t) (hstep : t.step route turn = some t') :
    s.run route (turns ++ [turn]) = some t' := by
  rw [run] at hs ⊢
  rw [List.foldlM_append, hs]
  simpa using hstep

theorem shadows_refl (hlanes : s.lanes = lanes) (hv : s.visitors v = visitor) :
    s.Shadows C route v lanes visitor :=
  ⟨[], s, rfl, hlanes, hv, fun _ _ => rfl⟩

/-- Registrations go on beside the visitor. -/
theorem Shadows.register (h : s.Shadows C route v lanes visitor) {turn : Turn C}
    (hturn : ∀ v, turn.visits v = false) (ht : t.lanes = lanes)
    (hstep : t.step route turn = some t') : s.Shadows C route v t'.lanes visitor := by
  obtain ⟨turns, u, hu, hlanes, hvisitor, hother⟩ := h
  exact ⟨_, _, run_append_singleton hu (step_of_lanes hstep hturn (hlanes.trans ht.symm)), rfl,
    hvisitor, hother⟩

/-- The visitor takes a step. -/
theorem Shadows.visit (h : s.Shadows C route v lanes visitor)
    (hstep : visitor.step (fun i => ShardKind.store (lanes i).shard) = some visitor') :
    s.Shadows C route v lanes visitor' := by
  obtain ⟨turns, u, hu, rfl, rfl, hother⟩ := h
  refine ⟨turns ++ [.visit v], { u with visitors := Function.update u.visitors v visitor' },
    run_append_singleton hu ?_, rfl, Function.update_self _ _ _, fun w hw => ?_⟩
  · rw [step, hstep]
    rfl
  · exact (Function.update_of_ne hw _ _).trans (hother w hw)

/-- What is known of a visitor that goes along with shards. -/
theorem Shadows.inv (h : s.Shadows C route v lanes visitor) {schedule : List (Turn C)}
    (hs : new.run route schedule = some s) :
    ∃ ps, (∀ i, (lanes i).Inv (ps i))
      ∧ visitor.Inv (fun _ => 0) (fun i => (lanes i).order) ps := by
  obtain ⟨turns, t, ht, rfl, rfl, -⟩ := h
  have hrun : new.run route (schedule ++ turns) = some t := by
    rw [run] at hs ht ⊢
    rw [List.foldlM_append, hs]
    exact ht
  obtain ⟨ps, hinv⟩ := run_inv hrun
  exact ⟨ps, hinv.lanes, hinv.visitors v⟩

open Process (traversed)

/-- It has visited a selection of their entries. -/
theorem Shadows.sublist (h : s.Shadows C route v lanes visitor) {schedule : List (Turn C)}
    (hs : new.run route schedule = some s) :
    (traversed visitor).Sublist (flat (fun i => (lanes i).order)) := by
  obtain ⟨ps, -, hvisitor⟩ := h.inv hs
  exact List.Sublist.flatMap_right _ (fun i _ => (hvisitor.visited i).sublist)

/-- When it is over it has visited all keys that were returned before. -/
theorem Shadows.exists_traversed (h : s.Shadows C route v lanes visitor) {schedule : List (Turn C)}
    (hs : new.run route schedule = some s) (hnew : s.visitors v = Visitor.new)
    (hdone : visitor.Done) {k : K} {i : Fin SHARD_COUNT} (hk : k ∈ s.returned i) :
    ∃ entry ∈ traversed visitor, ShardKind.key σ entry = k := by
  obtain ⟨turns, t, ht, -, rfl, -⟩ := h
  exact Process.exists_traversed hs ht hnew hdone hk

/-- A visitor that goes along with shards, and then with what becomes of them another. -/
theorem Shadows.exists_next (h : s.Shadows C route v lanes visitor) {schedule : List (Turn C)}
    (hs : new.run route schedule = some s) {w : ℕ} (hw : w ≠ v)
    (hnew : s.visitors w = Visitor.new) :
    ∃ (turns : List (Turn C)) (t : Traversals σ T K), new.run route turns = some t
      ∧ t.lanes = lanes ∧ t.visitors v = visitor ∧ t.visitors w = Visitor.new := by
  obtain ⟨turns, t, ht, hlanes, hvisitor, hother⟩ := h
  refine ⟨schedule ++ turns, t, ?_, hlanes, hvisitor, (hother w hw).trans hnew⟩
  rw [run] at hs ht ⊢
  rw [List.foldlM_append, hs]
  exact ht

/-- The other one visits what the first has visited. -/
theorem Shadows.grows {w : ℕ} (h : s.Shadows C route w lanes visitor') {schedule : List (Turn C)}
    (hs : new.run route schedule = some s) (hv : s.visitors v = visitor) (hdone : visitor.Done)
    (hnew : s.visitors w = Visitor.new) (hdone' : visitor'.Done) :
    (traversed visitor).Sublist (traversed visitor') := by
  obtain ⟨turns, t, ht, -, rfl, -⟩ := h
  rw [← hv] at hdone ⊢
  exact Process.traversed_grows hs ht hdone hnew hdone'

end Lanes

end Traversals

/-! ## Shards of a process -/

namespace Process

section Process

variable {host : Host} {p q : Process} {move : Move}

/-- A move changes the timing shards as a registration does, if at all. -/
theorem Happens.timing_lanes (h : p.Happens host move q) :
    q.timing.lanes = p.timing.lanes ∨ ∃ turn : Turn ProfileMeta, (∀ v, turn.visits v = false)
      ∧ p.timing.step host.timing_route turn = some q.timing := by
  cases h with
  | lock_timing _ _ _ _ _ _ hstep | access_timing _ _ _ _ _ _ hstep
  | unlock_timing _ _ _ _ _ _ hstep => exact .inr ⟨_, fun _ => rfl, hstep⟩
  | visit_timing _ _ _ hstep => exact .inl (Traversals.lanes_visit hstep)
  | _ => exact .inl rfl

/-- The same for the scalar shards. -/
theorem Happens.scalar_lanes (h : p.Happens host move q) :
    q.scalars.lanes = p.scalars.lanes ∨ ∃ turn : Turn ScalarShard.Request,
      (∀ v, turn.visits v = false) ∧ p.scalars.step host.scalar_route turn = some q.scalars := by
  cases h with
  | lock_scalar _ _ _ _ _ _ hstep | access_scalar _ _ _ _ _ _ hstep
  | unlock_scalar _ _ _ _ _ _ hstep => exact .inr ⟨_, fun _ => rfl, hstep⟩
  | visit_scalars _ _ _ _ hstep => exact .inl (Traversals.lanes_visit hstep)
  | _ => exact .inl rfl

/-- A visitor beside the timing shards goes along with a move. -/
theorem Happens.shadows_timing (h : p.Happens host move q)
    {s : Traversals Shard MetricMeta TimingKey} {v : ℕ} {visitor : Visitor MetricMeta}
    (hs : s.Shadows ProfileMeta host.timing_route v p.timing.lanes visitor) :
    s.Shadows ProfileMeta host.timing_route v q.timing.lanes visitor := by
  rcases h.timing_lanes with heq | ⟨turn, hturn, hstep⟩
  · rwa [heq]
  · exact hs.register hturn rfl hstep

theorem Happens.shadows_scalars (h : p.Happens host move q)
    {s : Traversals ScalarShard ScalarMeta ScalarKey} {v : ℕ} {visitor : Visitor ScalarMeta}
    (hs : s.Shadows ScalarShard.Request host.scalar_route v p.scalars.lanes visitor) :
    s.Shadows ScalarShard.Request host.scalar_route v q.scalars.lanes visitor := by
  rcases h.scalar_lanes with heq | ⟨turn, hturn, hstep⟩
  · rwa [heq]
  · exact hs.register hturn rfl hstep

end Process

end Process

end BrzMetrics
