/-
Calls get through.

A registration takes one mutex at a time and asks for nothing while it holds it, so
threads never wait for each other in a circle. What a call has still to do is bounded by
a small number (`Process.cost`): its sections, and for the section in front of which it
waits the accesses that the holder of the mutex has left. Some move of the thread
itself, or of that holder, lowers it. So from every reachable state every call can be
completed in a few moves that nobody but the thread and the holders makes
(`Process.calls_complete`), whatever else is going on.
-/
import BrzMetrics.Ownership

set_option autoImplicit false

namespace BrzMetrics

open KeyedStore Linearize Exclusion

/-! ## Moves that can be made -/

namespace Traversals

variable {σ T C K : Type} [ShardKind σ T C K] [DecidableEq K] {s : Traversals σ T K}

/-- A free mutex can be taken. -/
theorem exists_lock (route : K → Fin SHARD_COUNT) (call : C)
    (hfree : s.held (route (ShardKind.call_key σ call)) = none) :
    ∃ s', s.step route (.lock call) = some s' := by
  have hholder : (s.lanes (route (ShardKind.call_key σ call))).holder = none :=
    Option.map_eq_none_iff.mp hfree
  simp [step, on_lane, Lane.lock, hholder]

/-- The holder of a mutex can make the accesses it has left. -/
theorem exists_access (route : K → Fin SHARD_COUNT) {i : Fin SHARD_COUNT} (hleft : 0 < s.left i) :
    ∃ s', s.step route (.access i : Turn C) = some s' := by
  rw [left, Lane.todo] at hleft
  rcases hholder : (s.lanes i).holder with _ | ⟨k, _ | ⟨a, todo⟩⟩
  · simp [hholder] at hleft
  · simp [hholder] at hleft
  · simp [step, on_lane, Lane.access, hholder]

/-- With none left it can release the mutex. -/
theorem exists_unlock (route : K → Fin SHARD_COUNT) {i : Fin SHARD_COUNT} {k : K}
    (hheld : s.held i = some k)
    (hleft : s.left i = 0) : ∃ s', s.step route (.unlock i : Turn C) = some s' := by
  rw [left, Lane.todo] at hleft
  rcases hholder : (s.lanes i).holder with _ | ⟨k, _ | ⟨a, todo⟩⟩
  · simp [held, hholder] at hheld
  · simp [step, on_lane, Lane.unlock, hholder]
  · simp [hholder] at hleft

end Traversals

namespace Process

/-- How many accesses the holder of a mutex has left. -/
def pending (self : Process) : Place → ℕ
  | .timing shard => self.timing.left shard
  | .scalar shard => self.scalars.left shard
  | .states => 0

section Moves

variable {host : Host} {p : Process} {t : ℕ} {access : Access} {place : Place}
  {result : Option Handle}

/-- A thread in front of a free mutex can take it. -/
theorem exists_lock (hwaiting : (p.threads t).pc = .waiting access)
    (hfree : p.held (access.place host) = none) :
    ∃ p' result, p.step host (.lock t) = some p'
      ∧ p'.threads = Function.update p.threads t
          ⟨.inside access (access.place host) result, (p.threads t).todo⟩
      ∧ p'.order = p.order ++ [⟨t, access, result⟩] := by
  cases access with
  | record_state name key value =>
    have hholder : p.states_holder = none := Option.map_eq_none_iff.mp hfree
    simp only [step, hwaiting, take_lock, hholder, Access.place]
    exact ⟨_, none, rfl, rfl, rfl⟩
  | registration op =>
    simp only [step, hwaiting, take_lock, Access.place, Registration.place] at hfree ⊢
    cases htarget : op.target with
    | inl profile =>
      rw [htarget] at hfree
      obtain ⟨timing, hstep⟩ := Traversals.exists_lock host.timing_route profile
        (Option.map_eq_none_iff.mp hfree)
      simp only [hstep, Option.map_some]
      exact ⟨_, _, rfl, rfl, rfl⟩
    | inr request =>
      rw [htarget] at hfree
      obtain ⟨scalars, hstep⟩ := Traversals.exists_lock host.scalar_route request
        (Option.map_eq_none_iff.mp hfree)
      simp only [hstep, Option.map_some]
      exact ⟨_, _, rfl, rfl, rfl⟩

/-- A thread inside a section can go on with it. -/
theorem exists_access (hinside : (p.threads t).pc = .inside access place result)
    (hpending : 0 < p.pending place) :
    ∃ p', p.step host (.access t) = some p' ∧ p'.threads = p.threads ∧ p'.order = p.order
      ∧ p'.held = p.held ∧ p'.pending place + 1 = p.pending place := by
  simp only [step, hinside, make_access]
  cases place with
  | timing shard =>
    obtain ⟨timing, hstep⟩ := Traversals.exists_access (C := ProfileMeta)
      host.timing_route hpending
    obtain ⟨hheld, hleft, -⟩ := Traversals.held_access hstep
    simp only [hstep, Option.map_some]
    refine ⟨_, rfl, rfl, rfl, ?_, hleft⟩
    funext place
    cases place <;> simp only [held, hheld]
  | scalar shard =>
    obtain ⟨scalars, hstep⟩ := Traversals.exists_access (C := ScalarShard.Request)
      host.scalar_route hpending
    obtain ⟨hheld, hleft, -⟩ := Traversals.held_access hstep
    simp only [hstep, Option.map_some]
    refine ⟨_, rfl, rfl, rfl, ?_, hleft⟩
    funext place
    cases place <;> simp only [held, hheld]
  | states => exact absurd hpending (lt_irrefl 0)

/-- A thread that has made all accesses of its section can leave it. -/
theorem exists_unlock (h : p.Owned host) (hinside : (p.threads t).pc = .inside access place result)
    (hpending : p.pending place = 0) :
    ∃ p', p.step host (.unlock t) = some p'
      ∧ p'.threads = Function.update p.threads t ⟨.outside, (p.threads t).todo⟩
      ∧ p'.order = p.order ∧ p'.held place = none := by
  have hheld := (h.exclusive.held_iff place access.key).mpr ⟨t, by rw [hinside]; rfl⟩
  simp only [step, hinside, release]
  cases place with
  | timing shard =>
    obtain ⟨k, hk, -⟩ := Option.map_eq_some_iff.mp hheld
    obtain ⟨timing, hstep⟩ := Traversals.exists_unlock (C := ProfileMeta)
      host.timing_route hk hpending
    obtain ⟨_, -, hfree, -⟩ := Traversals.held_unlock hstep
    simp only [hstep, Option.map_some]
    exact ⟨_, rfl, rfl, rfl, by simp only [held, hfree, Function.update_self, Option.map_none]⟩
  | scalar shard =>
    obtain ⟨k, hk, -⟩ := Option.map_eq_some_iff.mp hheld
    obtain ⟨scalars, hstep⟩ := Traversals.exists_unlock (C := ScalarShard.Request)
      host.scalar_route hk hpending
    obtain ⟨_, -, hfree, -⟩ := Traversals.held_unlock hstep
    simp only [hstep, Option.map_some]
    exact ⟨_, rfl, rfl, rfl, by simp only [held, hfree, Function.update_self, Option.map_none]⟩
  | states => exact ⟨_, rfl, rfl, rfl, rfl⟩

/-- No mutex is held with more than six accesses to go. -/
theorem Owned.pending_le (h : p.Owned host) (place : Place) : p.pending place ≤ 6 := by
  cases place with
  | timing shard => exact h.timing_left shard
  | scalar shard => exact h.scalars_left shard
  | states => exact Nat.zero_le 6

end Moves

end Process

/-! ## Completing a call -/

/-- The sections a thread has still to take the mutex of. -/
def Thread.ahead (self : Thread) : List Access :=
  match self.pc with
  | .waiting access => access :: self.todo
  | .outside | .inside _ _ _ | .updating _ => self.todo

/-- Moves that complete the call of a thread: its own, and those of threads inside their sections
to the end of the section. -/
def Move.Completes (t : ℕ) : Move → Prop
  | .enter u | .lock u | .apply u => u = t
  | .access _ | .unlock _ => True
  | .call _ _ | .update _ _ | .read _ _ => False

namespace Process

/-- What has to happen before a mutex can be taken. -/
def blocked (self : Process) (place : Place) : ℕ :=
  match self.held place with
  | none => 0
  | some _ => self.pending place + 1

/-- How many moves are enough to get to the end of the section or update a thread is at. -/
def section_cost (host : Host) (self : Process) : ThreadPc → ℕ
  | .outside => 0
  | .waiting access => 8 + self.blocked (access.place host)
  | .inside _ place _ => self.pending place + 1
  | .updating ops => ops.length + 1

/-- How many moves are enough to complete the call of a thread. -/
def cost (host : Host) (self : Process) (t : ℕ) : ℕ :=
  16 * (self.threads t).todo.length + self.section_cost host (self.threads t).pc

/-- What has become of a process when only moves have been made that complete the call of a
thread: the thread has performed sections that it had ahead, and some others have left theirs. -/
structure Completing (t : ℕ) (p q : Process) : Prop where
  performed : q.order.map (fun e => (e.client, e.op)) ++ (q.threads t).ahead.map (fun a => (t, a))
    = p.order.map (fun e => (e.client, e.op)) ++ (p.threads t).ahead.map (fun a => (t, a))
  others : ∀ u, u ≠ t → q.threads u = p.threads u
    ∨ (p.threads u).pc.phase ≠ .idle ∧ q.threads u = ⟨.outside, (p.threads u).todo⟩

section Completing

variable {host : Host} {p q : Process} {t : ℕ}

theorem completing_refl : p.Completing t p where
  performed := rfl
  others := fun _ _ => .inl rfl

/-- A thread that goes on. -/
theorem Completing.own (h : p.Completing t q) {r : Process} {thread : Thread}
    (hthreads : r.threads = Function.update q.threads t thread)
    (hperformed : r.order.map (fun e => (e.client, e.op)) ++ thread.ahead.map (fun a => (t, a))
      = q.order.map (fun e => (e.client, e.op)) ++ (q.threads t).ahead.map (fun a => (t, a))) :
    p.Completing t r where
  performed := by
    rw [hthreads, Function.update_self, hperformed]
    exact h.performed
  others := by
    intro u hu
    rw [hthreads, Function.update_of_ne hu]
    exact h.others u hu

/-- Another thread that leaves its section. -/
theorem Completing.leave (h : p.Completing t q) {r : Process} {u : ℕ} (hu : u ≠ t)
    (hinside : (q.threads u).pc.phase ≠ .idle)
    (hthreads : r.threads = Function.update q.threads u ⟨.outside, (q.threads u).todo⟩)
    (horder : r.order = q.order) : p.Completing t r where
  performed := by
    rw [hthreads, Function.update_of_ne (Ne.symm hu), horder]
    exact h.performed
  others := by
    intro v hv
    by_cases hvu : v = u
    · subst hvu
      rw [hthreads, Function.update_self]
      rcases h.others v hv with heq | ⟨-, heq⟩
      · exact .inr ⟨heq ▸ hinside, by rw [heq]⟩
      · -- a thread that has left its section is in none
        rw [heq] at hinside
        exact absurd rfl hinside
    · rw [hthreads, Function.update_of_ne hvu]
      exact h.others v hv

/-- An access changes no thread. -/
theorem Completing.access (h : p.Completing t q) {r : Process} (hthreads : r.threads = q.threads)
    (horder : r.order = q.order) : p.Completing t r where
  performed := by
    rw [hthreads, horder]
    exact h.performed
  others := by
    rw [hthreads]
    exact h.others

/-- A held mutex is blocked for as long as its holder takes. -/
theorem blocked_of_held {place : Place} {tag : Option StoreKey} (h : p.held place = some tag) :
    p.blocked place = p.pending place + 1 := by
  rw [blocked, h]

theorem blocked_of_free {place : Place} (h : p.held place = none) : p.blocked place = 0 := by
  rw [blocked, h]

theorem Owned.blocked_le (h : p.Owned host) (place : Place) : p.blocked place ≤ 7 := by
  have hpending := h.pending_le place
  unfold blocked
  split <;> omega

/-- As long as a thread is in a call there is a move that brings its end nearer. -/
theorem exists_completing_move (h : q.Owned host) (hcompleting : p.Completing t q)
    (hcall : q.threads t ≠ Thread.idle) :
    ∃ move r, move.Completes t ∧ q.step host move = some r ∧ p.Completing t r
      ∧ r.cost host t < q.cost host t := by
  obtain ⟨⟨pc, todo⟩, hthread⟩ : ∃ thread, q.threads t = thread := ⟨_, rfl⟩
  have hpc : (q.threads t).pc = pc := by rw [hthread]
  have htodo : (q.threads t).todo = todo := by rw [hthread]
  cases pc with
  | outside =>
    cases todo with
    | nil => exact absurd hthread hcall
    | cons access todo =>
      have hstep : q.step host (.enter t) = some { q.set_thread t ⟨.waiting access, todo⟩ with
          history := q.history ++ [.invoke t access] } := by
        simp only [step, hthread]
      refine ⟨.enter t, _, rfl, hstep, hcompleting.own
        (show _ = Function.update q.threads t ⟨.waiting access, todo⟩ from rfl) ?_, ?_⟩
      · rw [hthread]
        rfl
      · -- the mutex of the section may be held, but not with much left to do
        have hblocked := h.blocked_le (access.place host)
        have hcost : Process.cost host ({ q.set_thread t ⟨.waiting access, todo⟩ with
            history := q.history ++ [.invoke t access] } : Process) t
            = 16 * todo.length + (8 + q.blocked (access.place host)) := by
          simp only [cost, set_thread, Function.update_self]
          rfl
        rw [hcost, cost, hpc, htodo, List.length_cons, section_cost]
        omega
  | waiting access =>
    cases hheld : q.held (access.place host) with
    | none =>
      obtain ⟨r, result, hstep, hthreads, horder⟩ := exists_lock hpc hheld
      refine ⟨.lock t, r, rfl, hstep, hcompleting.own hthreads ?_, ?_⟩
      · rw [horder, hthread]
        simp [Thread.ahead]
      · have howned := h.happens (step_happens hstep)
        have hpending := howned.pending_le (access.place host)
        rw [cost, cost, hthreads, Function.update_self, hpc, htodo, section_cost, section_cost]
        omega
    | some tag =>
      -- the holder of the mutex is another thread, which can go on
      obtain ⟨u, hu⟩ := (h.exclusive.held_iff _ tag).mp hheld
      have hut : u ≠ t := by
        rintro rfl
        rw [hpc] at hu
        cases hu
      have hat : ∃ access' result,
          (q.threads u).pc = .inside access' (access.place host) result := by
        cases hupc : (q.threads u).pc with
        | inside access' place result =>
          rw [hupc] at hu
          obtain ⟨rfl, -⟩ := Prod.mk.inj (Option.some.inj hu)
          exact ⟨access', result, rfl⟩
        | outside | waiting _ | updating _ => rw [hupc] at hu; cases hu
      obtain ⟨access', result, hinside⟩ := hat
      rcases Nat.eq_zero_or_pos (q.pending (access.place host)) with hzero | hpos
      · obtain ⟨r, hstep, hthreads, horder, hfree⟩ := exists_unlock h hinside hzero
        refine ⟨.unlock u, r, trivial, hstep,
          hcompleting.leave hut (by rw [hinside]; simp [ThreadPc.phase]) hthreads horder, ?_⟩
        rw [cost, cost, hthreads, Function.update_of_ne (Ne.symm hut), hpc, section_cost,
          section_cost, blocked_of_free hfree, blocked_of_held hheld]
        omega
      · obtain ⟨r, hstep, hthreads, horder, hheld', hpending⟩ := exists_access hinside hpos
        refine ⟨.access u, r, trivial, hstep, hcompleting.access hthreads horder, ?_⟩
        rw [cost, cost, hthreads, hpc, section_cost, section_cost,
          blocked_of_held (hheld' ▸ hheld), blocked_of_held hheld]
        omega
  | inside access place result =>
    rcases Nat.eq_zero_or_pos (q.pending place) with hzero | hpos
    · obtain ⟨r, hstep, hthreads, horder, -⟩ := exists_unlock h hpc hzero
      refine ⟨.unlock t, r, trivial, hstep, hcompleting.own hthreads ?_, ?_⟩
      · rw [horder, hthread]
        rfl
      · rw [cost, cost, hthreads, Function.update_self, hpc, htodo, section_cost, section_cost]
        omega
    · obtain ⟨r, hstep, hthreads, horder, -, hpending⟩ := exists_access hpc hpos
      refine ⟨.access t, r, trivial, hstep, hcompleting.access hthreads horder, ?_⟩
      rw [cost, cost, hthreads, hpc, section_cost, section_cost]
      omega
  | updating ops =>
    cases ops with
    | nil =>
      have hstep : q.step host (.apply t) = some (q.set_pc t .outside) := by
        simp only [step, hpc]
      refine ⟨.apply t, _, rfl, hstep,
        hcompleting.own
          (show _ = Function.update q.threads t ⟨.outside, (q.threads t).todo⟩ from rfl) ?_, ?_⟩
      · rw [hthread]
        rfl
      · simp [cost, section_cost, set_pc, set_thread, hthread]
    | cons op ops =>
      have hstep : q.step host (.apply t) = some { q.set_pc t (.updating ops) with
          memory := op.apply q.memory } := by
        simp only [step, hpc]
      refine ⟨.apply t, _, rfl, hstep,
        hcompleting.own
          (show _ = Function.update q.threads t ⟨.updating ops, (q.threads t).todo⟩ from rfl)
          ?_, ?_⟩
      · rw [hthread]
        rfl
      · simp [cost, section_cost, set_pc, set_thread, hthread]

/-- A call is never far from its end. -/
theorem Owned.cost_le (h : p.Owned host) (t : ℕ) : p.cost host t ≤ 32 := by
  have hshort := h.short t
  unfold Thread.Short at hshort
  unfold cost
  cases hpc : (p.threads t).pc with
  | outside =>
    simp only [hpc] at hshort
    rw [section_cost]
    omega
  | waiting access =>
    simp only [hpc] at hshort
    have := h.blocked_le (access.place host)
    rw [section_cost]
    omega
  | inside access place result =>
    simp only [hpc] at hshort
    have := h.pending_le place
    rw [section_cost]
    omega
  | updating ops =>
    simp only [hpc] at hshort
    rw [section_cost, hshort.1, List.length_nil]
    omega

end Completing

/-- No call is ever stuck. From every state that a process reaches, in the middle of whatever calls
of any number of threads and with any readers under construction, the call of any thread can be
completed in at most 32 moves, all made by that thread or by threads that are inside a section and
go on to its end. The thread performs exactly the sections it had ahead; the others stay where
they are or have left the section they were in. -/
theorem calls_complete (host : Host) (schedule : List Move) (p : Process)
    (hrun : Process.new.run host schedule = some p) (t : ℕ) :
    ∃ moves p', p.run host moves = some p' ∧ moves.length ≤ 32
      ∧ (∀ move ∈ moves, move.Completes t)
      ∧ p'.threads t = Thread.idle
      ∧ p'.order.map (fun e => (e.client, e.op)) = p.order.map (fun e => (e.client, e.op))
          ++ (p.threads t).ahead.map (fun access => (t, access))
      ∧ ∀ u, u ≠ t → p'.threads u = p.threads u
          ∨ (p.threads u).pc.phase ≠ .idle ∧ p'.threads u = ⟨.outside, (p.threads u).todo⟩ := by
  have howned := (owned_new host).run hrun
  obtain ⟨moves, p', hmoves, hp', hlength, ⟨-, hcompleting⟩, hidle⟩ :=
    exists_completion (step host) (fun q => q.Owned host ∧ p.Completing t q)
      (fun q => q.threads t = Thread.idle) (Move.Completes t) (fun q => q.cost host t)
      (fun q h hcall => by
        obtain ⟨move, r, hhelps, hstep, hcompleting, hlt⟩ := exists_completing_move h.1 h.2 hcall
        exact ⟨move, r, hhelps, hstep, ⟨h.1.happens (step_happens hstep), hcompleting⟩, hlt⟩)
      ⟨howned, completing_refl⟩
  refine ⟨moves, p', hp', hlength.trans (howned.cost_le t), hmoves, hidle, ?_,
    hcompleting.others⟩
  have hperformed := hcompleting.performed
  rw [hidle, Thread.idle] at hperformed
  simpa [Thread.ahead] using hperformed

/-- A thread in front of the mutex that another one holds. -/
theorem queue_completes : ∃ p moves p', Process.new.run Host.seedless (queue_twice.take 6) = some p
    ∧ p.run Host.seedless moves = some p' ∧ moves.length ≤ 32
    ∧ p'.threads 0 = Thread.idle := by
  obtain ⟨p, hp⟩ := Option.isSome_iff_exists.mp
    (show (Process.new.run Host.seedless (queue_twice.take 6)).isSome = true by rfl)
  obtain ⟨moves, p', hp', hlength, -, hidle, -⟩ := calls_complete Host.seedless _ p hp 0
  exact ⟨p, moves, p', hp, hp', hlength, hidle⟩

end Process

end BrzMetrics
