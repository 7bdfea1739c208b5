/-
A process is as good as one that takes its critical sections in one go.

`Process.registry` is the registry that a process amounts to: every shard as the
holder of its mutex will leave it. It changes when a mutex is taken and at no
other time, and then as the whole section changes it (`Process.take_lock_steps`). So a
process runs the atomic object of `Linearize`, with the registry of the claims'
sequential model behind it, and its sections happen in the order in which they took
their mutexes, whatever the schedule (`Process.linearizable`).
-/
import BrzMetrics.Process

set_option autoImplicit false

namespace BrzMetrics

open KeyedStore Linearize

/-! ## A section in one go -/

section Lanes

variable {σ T C K I : Type} [ShardKind σ T C K] [ShardSlots σ T C K I] {l l' : Lane σ T K}

omit [ShardSlots σ T C K I] in
/-- A shard whose mutex is free is as it will be left. -/
theorem Lane.outcome_of_free (hfree : l.holder = none) : l.shard = l.outcome := by
  simp [outcome, todo, hfree]

/-- Taking the mutex of a shard settles what the call makes of it. -/
theorem Lane.lock_cases [DecidableEq K] {call : C} (hl : l.lock call = some l') :
    l.holder = none ∧ l.outcome = l.shard
      ∧ ((∃ item, ShardSlots.found l.shard (ShardKind.call_key σ call) = some item
          ∧ l.result call = item ∧ l'.outcome = l.shard)
        ∨ (ShardSlots.found l.shard (ShardKind.call_key σ call) = none
          ∧ l.result call = ShardSlots.slot σ (ShardKind.call_entry l.shard call)
          ∧ l'.outcome = (ShardKind.accesses l.shard call).foldl
              (fun s a => ShardKind.apply a s) l.shard)) := by
  unfold Lane.lock at hl
  cases hholder : l.holder with
  | some held => simp [hholder] at hl
  | none =>
    simp only [hholder, Option.some.injEq] at hl
    subst hl
    refine ⟨rfl, by simp [outcome, todo, hholder], ?_⟩
    have hknown := ShardSlots.known_eq (σ := σ) l.shard (ShardKind.call_key σ call)
    cases hfound : ShardSlots.found l.shard (ShardKind.call_key σ call) with
    | some item =>
      rw [hfound, Option.isSome_some] at hknown
      exact .inl ⟨item, rfl, by rw [result, hfound]; rfl, by simp [outcome, todo, hknown]⟩
    | none =>
      rw [hfound, Option.isSome_none] at hknown
      exact .inr ⟨rfl, by rw [result, hfound]; rfl, by simp [outcome, todo, hknown]⟩

end Lanes

/-- A timing registration is what its lane makes of it. -/
theorem Shard.enroll_lock {l l' : Lane Shard MetricMeta TimingKey} (h : l.outcome.Inv l.order)
    {profile : ProfileMeta} (hl : l.lock profile = some l') :
    Shard.enroll profile l.outcome
      = .ok (Metric.from_item (l.result profile) profile.policy) l'.outcome := by
  obtain ⟨-, hshard, hcases⟩ := Lane.lock_cases hl
  rw [hshard] at h ⊢
  rcases hcases with ⟨item, hfound, hresult, houtcome⟩ | ⟨hfound, hresult, houtcome⟩
  · have hfound : l.shard.find profile.key = some item := hfound
    rw [Shard.enroll_eq h.healthy, hfound, hresult, houtcome]
  · rw [Shard.run_accesses h profile hfound, hresult, houtcome]
    rfl

/-- A scalar registration is what its lane makes of it. -/
theorem ScalarShard.register_lock {l l' : Lane ScalarShard ScalarMeta ScalarKey}
    (h : l.outcome.Inv l.order) {request : ScalarShard.Request} (hl : l.lock request = some l') :
    ScalarShard.register request.kind request.mode request.name request.resource l.outcome
      = .ok (l.result request) l'.outcome := by
  obtain ⟨-, hshard, hcases⟩ := Lane.lock_cases hl
  rw [hshard] at h ⊢
  rcases hcases with ⟨item, hfound, hresult, houtcome⟩ | ⟨hfound, hresult, houtcome⟩
  · rw [hresult, houtcome]
    exact ScalarShard.register_known h.healthy hfound
  · rw [ScalarShard.run_accesses h request hfound, hresult, houtcome]
    rfl

/-- A registration with a timing shard. -/
theorem Registration.issue_timing {op : Registration} {profile : ProfileMeta}
    (h : op.target = .inl profile) :
    op.issue = (do return .metric (← Registry.enroll profile)) := by
  cases op with
  | register _ _ | register_resource _ _ | register_profile _ =>
    obtain rfl := Sum.inl.inj h
    rfl
  | scalar_register _ _ _ | scalar_register_resource _ _ _ => exact (Sum.inr_ne_inl h).elim

/-- A registration with a scalar shard. -/
theorem Registration.issue_scalar {op : Registration} {request : ScalarShard.Request}
    (h : op.target = .inr request) :
    op.issue = (do return request.mode.handle (← Registry.on_scalars
      (ScalarRegistry.enroll request.kind request.mode request.name request.resource))) := by
  cases op with
  | register _ _ | register_resource _ _ | register_profile _ => exact (Sum.inl_ne_inr h).elim
  | scalar_register kind mode name =>
    obtain rfl := Sum.inr.inj h
    cases mode <;>
      simp only [issue, CounterMetric.new, GaugeMetric.new, bind_assoc, pure_bind] <;> rfl
  | scalar_register_resource kind mode labels =>
    obtain rfl := Sum.inr.inj h
    cases mode <;>
      simp only [issue, CounterMetric.new_resource, GaugeMetric.new_resource, bind_assoc,
        pure_bind] <;> rfl

/-- The kind of a scalar registration that is not rejected is valid. -/
theorem Registration.validate_of_target {op : Registration} {request : ScalarShard.Request}
    (h : op.target = .inr request) (hop : op.rejection = none) :
    request.kind.validate = .ok () := by
  cases op with
  | register _ _ | register_resource _ _ | register_profile _ => exact (Sum.inl_ne_inr h).elim
  | scalar_register _ _ _ | scalar_register_resource _ _ _ =>
    obtain rfl := Sum.inr.inj h
    exact MetricType.rejection_eq_none.mp hop

/-- The name a request carries is the one its entry gets. -/
theorem Registration.entry_name_of_target {op : Registration} {request : ScalarShard.Request}
    (h : op.target = .inr request) : entry_name request.name request.resource = request.name := by
  cases op with
  | register _ _ | register_resource _ _ | register_profile _ => exact (Sum.inl_ne_inr h).elim
  | scalar_register _ _ _ | scalar_register_resource _ _ _ =>
    obtain rfl := Sum.inr.inj h
    rfl

/-! ## Shards as their holders will leave them -/

namespace Traversals

variable {σ T C K : Type} [ShardKind σ T C K]

/-- Every shard, as the holder of its mutex will leave it. -/
def outcomes (self : Traversals σ T K) (i : Fin SHARD_COUNT) : σ := (self.lanes i).outcome

/-- The registration order of every shard. -/
def orders (self : Traversals σ T K) (i : Fin SHARD_COUNT) : List T := (self.lanes i).order

variable [DecidableEq K] {route : K → Fin SHARD_COUNT} {s s' : Traversals σ T K}

omit [DecidableEq K] in
/-- A step of one shard that leaves its outcome alone leaves all of them alone. -/
theorem on_lane_outcomes {i : Fin SHARD_COUNT} {f : Lane σ T K → Option (Lane σ T K)}
    (hf : ∀ l, f (s.lanes i) = some l → l.outcome = (s.lanes i).outcome)
    (hs : s.on_lane i f = some s') : s'.outcomes = s.outcomes := by
  obtain ⟨l, hl, rfl⟩ := Option.map_eq_some_iff.mp hs
  funext j
  by_cases hj : j = i
  · subst hj
    simp only [outcomes, Function.update_self, hf l hl]
  · simp only [outcomes, Function.update_of_ne hj]

/-- Only taking a mutex changes an outcome. -/
theorem step_outcomes {turn : Turn C} (hturn : ∀ call, turn ≠ .lock call)
    (hs : s.step route turn = some s') : s'.outcomes = s.outcomes := by
  cases turn with
  | lock call => exact absurd rfl (hturn call)
  | access i => exact on_lane_outcomes (fun _ => Lane.outcome_access) hs
  | unlock i => exact on_lane_outcomes (fun _ => Lane.outcome_unlock) hs
  | visit v =>
    obtain ⟨visitor, -, rfl⟩ := Option.map_eq_some_iff.mp hs
    rfl

/-- Taking a mutex changes the outcome of its own shard. -/
theorem lock_outcomes {call : C} (hs : s.step route (.lock call) = some s') :
    ∃ l, (s.lanes (route (ShardKind.call_key σ call))).lock call = some l
      ∧ s'.outcomes = Function.update s.outcomes (route (ShardKind.call_key σ call)) l.outcome := by
  obtain ⟨l, hl, rfl⟩ := Option.map_eq_some_iff.mp hs
  exact ⟨l, hl, funext (fun j => Function.apply_update (fun _ => Lane.outcome) _ _ _ j)⟩

/-- What no access touches stays as it was. -/
theorem step_frame {β : Type} {f : σ → β} (hf : ∀ a s, f (ShardKind.apply a s) = f s)
    {turn : Turn C} (hs : s.step route turn = some s') (i : Fin SHARD_COUNT) :
    f (s'.lanes i).shard = f (s.lanes i).shard := by
  have hlane : ∀ {j : Fin SHARD_COUNT} {g : Lane σ T K → Option (Lane σ T K)},
      (∀ l, g (s.lanes j) = some l → f l.shard = f (s.lanes j).shard) →
      s.on_lane j g = some s' → f (s'.lanes i).shard = f (s.lanes i).shard := by
    intro j g hg hon
    obtain ⟨l, hl, rfl⟩ := Option.map_eq_some_iff.mp hon
    exact (Function.forall_update_iff s.lanes (fun j lane => f lane.shard = f (s.lanes j).shard)).mpr
      ⟨hg l hl, fun _ _ => rfl⟩ i
  cases turn with
  | lock call =>
    refine hlane (fun l hl => ?_) hs
    cases hholder : (s.lanes (route (ShardKind.call_key σ call))).holder with
    | some held => simp [Lane.lock, hholder] at hl
    | none =>
      simp only [Lane.lock, hholder, Option.some.injEq] at hl
      rw [← hl]
  | access j =>
    refine hlane (fun l hl => ?_) hs
    rcases hholder : (s.lanes j).holder with _ | ⟨k, _ | ⟨a, todo⟩⟩ <;>
      simp only [Lane.access, hholder, Option.some.injEq, reduceCtorEq] at hl
    rw [← hl]
    exact hf a _
  | unlock j =>
    refine hlane (fun l hl => ?_) hs
    rcases hholder : (s.lanes j).holder with _ | ⟨k, _ | ⟨a, todo⟩⟩ <;>
      simp only [Lane.unlock, hholder, Option.some.injEq, reduceCtorEq] at hl
    rw [← hl]
  | visit v =>
    obtain ⟨visitor, -, rfl⟩ := Option.map_eq_some_iff.mp hs
    rfl

theorem run_frame {β : Type} {f : σ → β} (hf : ∀ a s, f (ShardKind.apply a s) = f s)
    {schedule : List (Turn C)} (hs : s.run route schedule = some s') (i : Fin SHARD_COUNT) :
    f (s'.lanes i).shard = f (s.lanes i).shard := by
  induction schedule generalizing s with
  | nil =>
    obtain rfl : s = s' := Option.some.inj hs
    rfl
  | cons turn schedule ih =>
    rw [run, List.foldlM_cons] at hs
    obtain ⟨t, ht, hrest⟩ := Option.bind_eq_some_iff.mp hs
    rw [ih hrest, step_frame hf ht]

omit [DecidableEq K] in
/-- Nor do the accesses that are left. -/
theorem outcomes_frame {β : Type} {f : σ → β} (hf : ∀ a s, f (ShardKind.apply a s) = f s)
    (i : Fin SHARD_COUNT) : f (s.outcomes i) = f (s.lanes i).shard := by
  have hfold : ∀ (todo : List (ShardAccess T)) (shard : σ),
      f (todo.foldl (fun s a => ShardKind.apply a s) shard) = f shard := by
    intro todo
    induction todo with
    | nil => exact fun _ => rfl
    | cons a todo ih => exact fun shard => (ih _).trans (hf a shard)
  exact hfold _ _

/-- The keys of a registration order are those routed to its shard. -/
theorem run_routed {schedule : List (Turn C)} (hs : new.run route schedule = some s) :
    Routed (ShardKind.key σ) route s.orders := by
  intro i entry hentry
  have hkey : ShardKind.key σ entry ∈ registration_order σ route i schedule := by
    rw [← run_order hs i]
    exact List.mem_map_of_mem hentry
  have hlocks : ∀ k ∈ schedule.filterMap (locks σ route i), route k = i := by
    intro k hk
    obtain ⟨turn, -, hturn⟩ := List.mem_filterMap.mp hk
    cases turn with
    | lock call =>
      rw [locks] at hturn
      split_ifs at hturn with hroute
      obtain rfl := Option.some.inj hturn
      exact hroute
    | access _ | unlock _ | visit _ => cases hturn
  -- first come, first kept: nothing but the locked keys is in the order
  have hmem := (mem_keys_firsts id (schedule.filterMap (locks σ route i))
    (ShardKind.key σ entry)).mp (by rw [List.map_id]; exact hkey)
  rw [List.map_id] at hmem
  exact hlocks _ hmem

end Traversals

/-! ## The registry of a process -/

/-- The sections a thread is in front of have been checked. -/
structure Thread.Checked (thread : Thread) : Prop where
  todo : ∀ access ∈ thread.todo, access.Checked
  waiting : ∀ access, thread.pc = .waiting access → access.Checked

namespace Process

/-- The registry a process amounts to. -/
def registry (host : Host) (self : Process) : Registry where
  scalars := { shards := self.scalars.outcomes, hasher := host.scalar_hasher }
  shards := self.timing.outcomes
  states := self.states
  shard_hasher := host.shard_hasher

/-- What a process shows of its sections. -/
def record (host : Host) (self : Process) : AtomicObject ℕ Access (Option Handle) Registry where
  object := self.registry host
  phase := fun t => (self.threads t).pc.phase
  history := self.history
  order := self.order

/-- The shards of a process have been reached by turns of their own, and its threads only run
sections that the constructors have checked. -/
structure Reached (host : Host) (p : Process) : Prop where
  timing : ∃ turns : List (Turn ProfileMeta),
    Traversals.new.run host.timing_route turns = some p.timing
  scalars : ∃ turns : List (Turn ScalarShard.Request),
    Traversals.new.run host.scalar_route turns = some p.scalars
  threads : ∀ t, (p.threads t).Checked
  order : ∀ e ∈ p.order, e.op.Checked

theorem reached_new (host : Host) : (new : Process).Reached host where
  timing := ⟨[], rfl⟩
  scalars := ⟨[], rfl⟩
  order := fun _ h => absurd h List.not_mem_nil
  threads := fun _ => ⟨fun _ h => absurd h List.not_mem_nil, fun _ h => ThreadPc.noConfusion h⟩

section Step

variable {host : Host} {p p' : Process}

/-- The registry a process amounts to is a well-formed one, with the registration orders of its
shards. -/
theorem Reached.inv (h : p.Reached host) :
    (p.registry host).Inv p.timing.orders p.scalars.orders := by
  obtain ⟨turns, hturns⟩ := h.timing
  obtain ⟨turns', hturns'⟩ := h.scalars
  have hid : ∀ a s, (ShardKind.apply a s : Shard).id = s.id := by
    intro a s
    cases a <;> first | rfl | exact Shard.insert_key_id _ _ _
  have hid' : ∀ a s, (ShardKind.apply a s : ScalarShard).id = s.id := by
    intro a s
    cases a <;> first | rfl | exact ScalarShard.insert_key_id _ _
  refine ⟨fun i => ?_, Traversals.run_holds hturns, Traversals.run_routed hturns, ⟨fun i => ?_,
    Traversals.run_holds hturns', Traversals.run_routed hturns'⟩⟩
  · exact (Traversals.outcomes_frame hid i).trans (Traversals.run_frame hid hturns i)
  · exact (Traversals.outcomes_frame hid' i).trans (Traversals.run_frame hid' hturns' i)

/-- Taking the mutex of a timing shard is the whole registration. -/
theorem effect_timing (h : p.Reached host) {op : Registration} {profile : ProfileMeta}
    (htarget : op.target = .inl profile) {timing : Traversals Shard MetricMeta TimingKey}
    (hstep : p.timing.step host.timing_route (.lock profile) = some timing) :
    (Access.registration op).effect (p.registry host)
      = (some (.metric (Metric.from_item
          ((p.timing.lanes (host.timing_route profile.key)).result profile) profile.policy)),
        ({ p with timing := timing } : Process).registry host) := by
  obtain ⟨l, hl, houtcomes⟩ := Traversals.lock_outcomes hstep
  have henroll : Registry.enroll profile (p.registry host)
      = .ok (Metric.from_item ((p.timing.lanes (host.timing_route profile.key)).result profile)
          profile.policy) (({ p with timing := timing } : Process).registry host) := by
    have hshard := Shard.enroll_lock (h.inv.shards (host.timing_route profile.key)) hl
    have hroute : (p.registry host).route profile.key = host.timing_route profile.key := rfl
    rw [Registry.enroll_eq, hroute, Registry.on_shard]
    have hlane : (p.registry host).shards (host.timing_route profile.key)
        = (p.timing.lanes (host.timing_route profile.key)).outcome := rfl
    rw [hlane, hshard]
    simp only [registry, houtcomes]
    rfl
  rw [Access.effect, Registration.issue_timing htarget, return_ok henroll Handle.metric]

/-- Taking the mutex of a scalar shard is the whole registration. -/
theorem effect_scalar (h : p.Reached host) {op : Registration} {request : ScalarShard.Request}
    (htarget : op.target = .inr request) (hop : op.rejection = none)
    {scalars : Traversals ScalarShard ScalarMeta ScalarKey}
    (hstep : p.scalars.step host.scalar_route (.lock request) = some scalars) :
    (Access.registration op).effect (p.registry host)
      = (some (request.mode.handle
          ((p.scalars.lanes (host.scalar_route request.key)).result request)),
        ({ p with scalars := scalars } : Process).registry host) := by
  obtain ⟨l, hl, houtcomes⟩ := Traversals.lock_outcomes hstep
  have henroll : Registry.on_scalars (ScalarRegistry.enroll request.kind request.mode request.name
        request.resource) (p.registry host)
      = .ok ((p.scalars.lanes (host.scalar_route request.key)).result request)
          (({ p with scalars := scalars } : Process).registry host) := by
    have hshard := ScalarShard.register_lock
      (h.inv.scalars.shards (host.scalar_route request.key)) hl
    have hkind := Registration.validate_of_target htarget hop
    have hroute : (p.registry host).scalars.route
        (ScalarShard.call_key request.kind request.mode request.name request.resource)
          = host.scalar_route request.key := rfl
    rw [Registry.on_scalars, ScalarRegistry.enroll_eq hkind, hroute, ScalarRegistry.on_shard,
      Registration.entry_name_of_target htarget]
    have hlane : (p.registry host).scalars.shards (host.scalar_route request.key)
        = (p.scalars.lanes (host.scalar_route request.key)).outcome := rfl
    rw [hlane, hshard]
    simp only [registry, houtcomes]
    rfl
  rw [Access.effect, Registration.issue_scalar htarget, return_ok henroll request.mode.handle]

/-- One more turn of the shards. -/
theorem turns_snoc {σ T C K : Type} [ShardKind σ T C K] [DecidableEq K]
    {route : K → Fin SHARD_COUNT} {s s' : Traversals σ T K} {turn : Turn C}
    (h : ∃ turns : List (Turn C), Traversals.new.run route turns = some s)
    (hs : s.step route turn = some s') :
    ∃ turns : List (Turn C), Traversals.new.run route turns = some s' := by
  obtain ⟨turns, hturns⟩ := h
  refine ⟨turns ++ [turn], ?_⟩
  rw [Traversals.run] at hturns ⊢
  rw [List.foldlM_append, hturns]
  simpa using hs

theorem threads_checked (h : ∀ t, (p.threads t).Checked) {t : ℕ} {thread : Thread}
    (hthread : thread.Checked) : ∀ u, (Function.update p.threads t thread u).Checked :=
  (Function.forall_update_iff p.threads (fun _ thread => thread.Checked)).mpr
    ⟨hthread, fun u _ => h u⟩

/-- The phases of the threads when one of them goes on. -/
theorem phase_update (t : ℕ) (thread : Thread) :
    (fun u => (Function.update p.threads t thread u).pc.phase)
      = Function.update (fun u => (p.threads u).pc.phase) t thread.pc.phase :=
  funext (Function.apply_update (fun _ (thread : Thread) => thread.pc.phase) p.threads t thread)

/-- A thread that goes on without a section being entered, taken or left. -/
theorem phase_update_of_eq (p : Process) (t : ℕ) (thread : Thread)
    (h : thread.pc.phase = (p.threads t).pc.phase) :
    (fun u => (Function.update p.threads t thread u).pc.phase)
      = fun u => (p.threads u).pc.phase := by
  rw [phase_update, h]
  exact Function.update_eq_self t (fun u => (p.threads u).pc.phase)

/-- Every move is reached, and is a step of the atomic registry or none: taking a mutex performs
the section. -/
theorem Reached.happens {move : Move} (h : p.Reached host) (hs : p.Happens host move p') :
    p'.Reached host ∧ AtomicObject.Steps Access.effect (p.record host) (p'.record host) := by
  obtain ⟨htiming, hscalars, hthreads, horder⟩ := h
  have hreached : p.Reached host := ⟨htiming, hscalars, hthreads, horder⟩
  -- the thread that moves has the sections of its call still to go, or fewer
  have hstay : ∀ (t : ℕ) (pc : ThreadPc), (∀ access, pc ≠ .waiting access) →
      ∀ u, (Function.update p.threads t ⟨pc, (p.threads t).todo⟩ u).Checked := fun t pc hpc =>
    threads_checked hthreads ⟨(hthreads t).todo, fun access haccess => absurd haccess (hpc access)⟩
  -- a section whose mutex is taken has been waited for
  have hsnoc : ∀ {t : ℕ} {access : Access} (result : Option Handle),
      (p.threads t).pc = .waiting access → ∀ e ∈ p.order ++ [⟨t, access, result⟩], e.op.Checked := by
    intro t access result hwaiting e he
    rcases List.mem_append.mp he with he | he
    · exact horder e he
    · rw [List.mem_singleton.mp he]
      exact (hthreads t).waiting access hwaiting
  cases hs with
  | call t call hidle =>
    refine ⟨⟨htiming, hscalars, threads_checked hthreads
      ⟨call.checked, fun _ hpc => ThreadPc.noConfusion hpc⟩, horder⟩, ?_⟩
    simp only [record, set_thread, registry,
      phase_update_of_eq p t ⟨.outside, call.accesses⟩ (by rw [hidle])]
    exact .refl
  | enter t access todo hidle =>
    have hchecked := hthreads t
    rw [hidle] at hchecked
    refine ⟨⟨htiming, hscalars, threads_checked hthreads
      ⟨fun a ha => hchecked.todo a (List.mem_cons_of_mem _ ha), fun a ha => ?_⟩, horder⟩, ?_⟩
    · obtain rfl := ThreadPc.waiting.inj ha
      exact hchecked.todo access List.mem_cons_self
    · have hphase : (p.record host).phase t = .idle := by simp only [record, hidle]; rfl
      refine .single ?_
      convert AtomicObject.Step.invoke t access hphase using 1
      simp only [record, set_thread, registry, AtomicObject.invoke, phase_update]
      rfl
  | lock_timing t op profile timing hwaiting htarget hstep =>
    refine ⟨⟨turns_snoc htiming hstep, hscalars, hstay t _ (fun _ => ThreadPc.noConfusion),
      hsnoc _ hwaiting⟩, ?_⟩
    have hphase : (p.record host).phase t = .called (.registration op) := by
      simp only [record, hwaiting]; rfl
    refine .single ?_
    convert AtomicObject.Step.carry_out t (.registration op) hphase using 1
    have heffect := effect_timing hreached htarget hstep
    simp only [record, locked, set_pc, set_thread, AtomicObject.carry_out, phase_update]
    rw [heffect]
    rfl
  | lock_scalar t op request scalars hwaiting htarget hstep =>
    refine ⟨⟨htiming, turns_snoc hscalars hstep, hstay t _ (fun _ => ThreadPc.noConfusion),
      hsnoc _ hwaiting⟩, ?_⟩
    have hphase : (p.record host).phase t = .called (.registration op) := by
      simp only [record, hwaiting]; rfl
    -- the constructors have checked the kind, so `validate` passes
    have hchecked : op.Checked := (hthreads t).waiting _ hwaiting
    refine .single ?_
    convert AtomicObject.Step.carry_out t (.registration op) hphase using 1
    have heffect := effect_scalar hreached htarget hchecked.accepted hstep
    simp only [record, locked, set_pc, set_thread, AtomicObject.carry_out, phase_update]
    rw [heffect]
    rfl
  | lock_states t name key value hwaiting hfree =>
    refine ⟨⟨htiming, hscalars, hstay t _ (fun _ => ThreadPc.noConfusion),
      hsnoc _ hwaiting⟩, ?_⟩
    have hphase : (p.record host).phase t = .called (.record_state name key value) := by
      simp only [record, hwaiting]; rfl
    refine .single ?_
    convert AtomicObject.Step.carry_out t (.record_state name key value) hphase using 1
    simp only [record, locked, set_pc, set_thread, AtomicObject.carry_out, phase_update]
    rfl
  | access_timing t access shard result timing hinside hstep =>
    refine ⟨⟨turns_snoc htiming hstep, hscalars, hthreads, horder⟩, ?_⟩
    have houtcomes := Traversals.step_outcomes (by simp) hstep
    simp only [record, registry, houtcomes]
    exact .refl
  | access_scalar t access shard result scalars hinside hstep =>
    refine ⟨⟨htiming, turns_snoc hscalars hstep, hthreads, horder⟩, ?_⟩
    have houtcomes := Traversals.step_outcomes (by simp) hstep
    simp only [record, registry, houtcomes]
    exact .refl
  | unlock_timing t access shard result timing hinside hstep =>
    refine ⟨⟨turns_snoc htiming hstep, hscalars, hstay t _ (fun _ => ThreadPc.noConfusion),
      horder⟩, ?_⟩
    have hphase : (p.record host).phase t = .performed access result := by
      simp only [record, hinside]; rfl
    have houtcomes := Traversals.step_outcomes (by simp) hstep
    refine .single ?_
    convert AtomicObject.Step.respond t access result hphase using 1
    simp only [record, unlocked, set_pc, set_thread, registry, AtomicObject.respond, phase_update,
      houtcomes]
    rfl
  | unlock_scalar t access shard result scalars hinside hstep =>
    refine ⟨⟨htiming, turns_snoc hscalars hstep, hstay t _ (fun _ => ThreadPc.noConfusion),
      horder⟩, ?_⟩
    have hphase : (p.record host).phase t = .performed access result := by
      simp only [record, hinside]; rfl
    have houtcomes := Traversals.step_outcomes (by simp) hstep
    refine .single ?_
    convert AtomicObject.Step.respond t access result hphase using 1
    simp only [record, unlocked, set_pc, set_thread, registry, AtomicObject.respond, phase_update,
      houtcomes]
    rfl
  | unlock_states t access result hinside =>
    refine ⟨⟨htiming, hscalars, hstay t _ (fun _ => ThreadPc.noConfusion), horder⟩, ?_⟩
    have hphase : (p.record host).phase t = .performed access result := by
      simp only [record, hinside]; rfl
    refine .single ?_
    convert AtomicObject.Step.respond t access result hphase using 1
    simp only [record, unlocked, set_pc, set_thread, registry, AtomicObject.respond, phase_update]
    rfl
  | update t call hidle hreturned =>
    refine ⟨⟨htiming, hscalars, threads_checked hthreads
      ⟨fun _ ha => absurd ha List.not_mem_nil, fun _ hpc => ThreadPc.noConfusion hpc⟩, horder⟩, ?_⟩
    simp only [record, set_thread, registry,
      phase_update_of_eq p t ⟨.updating call.ops, []⟩ (by rw [hidle]; rfl)]
    exact .refl
  | apply_last t hupdating =>
    refine ⟨⟨htiming, hscalars, hstay t _ (fun _ => ThreadPc.noConfusion), horder⟩, ?_⟩
    simp only [record, set_pc, set_thread, registry,
      phase_update_of_eq p t ⟨.outside, (p.threads t).todo⟩ (by rw [hupdating]; rfl)]
    exact .refl
  | apply t op ops hupdating =>
    refine ⟨⟨htiming, hscalars, hstay t _ (fun _ => ThreadPc.noConfusion), horder⟩, ?_⟩
    simp only [record, set_pc, set_thread, registry,
      phase_update_of_eq p t ⟨.updating ops, (p.threads t).todo⟩ (by rw [hupdating]; rfl)]
    exact .refl
  | visit_timing v order timing hstep =>
    refine ⟨⟨turns_snoc htiming hstep, hscalars, hthreads, horder⟩, ?_⟩
    have houtcomes := Traversals.step_outcomes (by simp) hstep
    simp only [record, registry, houtcomes]
    exact .refl
  | visit_scalars v order scalars hdone hstep =>
    refine ⟨⟨htiming, turns_snoc hscalars hstep, hthreads, horder⟩, ?_⟩
    have houtcomes := Traversals.step_outcomes (by simp) hstep
    simp only [record, registry, houtcomes]
    exact .refl
  | built v order hdone hdone' hnew hfree =>
    exact ⟨⟨htiming, hscalars, hthreads, horder⟩, .refl⟩

/-- Every state of a run is reached, by a run of the atomic registry. -/
theorem run_steps {schedule : List Move} (hs : new.run host schedule = some p) :
    p.Reached host ∧ AtomicObject.Steps Access.effect
      (.new (Registry.new host.shard_hasher host.scalar_hasher)) (p.record host) :=
  Linearize.run_steps (record host) (fun h hstep => Reached.happens h (step_happens hstep))
    (reached_new host) hs

end Step

end Process

/-! ## Linearizability -/

/-- Registrations and state records are linearizable, one shared-memory access at a time. In every
run of any number of threads that call the public constructors, update the handles they got and
build readers, the critical sections entered so far have results that the registry gives when it
runs whole sections one after the other, in the order in which they took their mutexes; in that
order every section comes after all that had returned when it was entered; and a shard whose mutex
is free is exactly as those sections leave it. -/
theorem Process.linearizable (host : Host) (schedule : List Move) (p : Process)
    (hrun : Process.new.run host schedule = some p) :
    Linearization Access.effect (Registry.new host.shard_hasher host.scalar_hasher) p.history p.order
      ∧ ∃ r : Registry,
        Legal Access.effect (Registry.new host.shard_hasher host.scalar_hasher) p.order r
        ∧ r.states = p.states
        ∧ (∀ i, (p.timing.lanes i).holder = none → (p.timing.lanes i).shard = r.shards i)
        ∧ ∀ i, (p.scalars.lanes i).holder = none →
            (p.scalars.lanes i).shard = r.scalars.shards i := by
  obtain ⟨-, hsteps⟩ := Process.run_steps hrun
  refine ⟨AtomicObject.linearization hsteps, p.registry host,
    (AtomicObject.inv_new.steps hsteps).legal, rfl, fun i hfree => ?_, fun i hfree => ?_⟩
  · exact Lane.outcome_of_free hfree
  · exact Lane.outcome_of_free hfree

/-- A process whose hash functions send everything to the first shard. -/
def Host.seedless : Host :=
  { shard_hasher := ⟨fun _ => 0⟩, scalar_hasher := ⟨fun _ => 0⟩, layout := .in_order }

/-- Two threads register one queue at the same time, and the second of them takes the mutex
first. -/
def queue_twice : List Move :=
  [.call 0 (.log "queue"), .enter 0, .call 1 (.log "queue"), .enter 1, .lock 1, .access 1, .access 1,
    .access 1, .access 1, .access 1, .access 1, .unlock 1, .lock 0, .unlock 0]

theorem queue_linearizable : ∃ p, Process.new.run Host.seedless queue_twice = some p
    ∧ p.returned = [.metric queue, .metric queue]
    ∧ Linearization Access.effect (Registry.new ⟨fun _ => 0⟩ ⟨fun _ => 0⟩) p.history p.order := by
  obtain ⟨p, hp⟩ := Option.isSome_iff_exists.mp
    (show (Process.new.run Host.seedless queue_twice).isSome = true by rfl)
  have hreturned : (Process.new.run Host.seedless queue_twice).map Process.returned
      = some [.metric queue, .metric queue] := by rfl
  rw [hp] at hreturned
  exact ⟨p, hp, Option.some.inj hreturned, (Process.linearizable Host.seedless _ p hp).1⟩

end BrzMetrics
