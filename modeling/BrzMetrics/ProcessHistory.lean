/-
Every moment of a process is a moment of a history.

A `History` runs critical sections one after the other. The sections of a process,
in the order in which they took their mutexes, are such a history
(`Process.Reached.exists_history`): its registry is the one the process amounts to, and
its handles are those the sections return. So what is known of histories holds while
any number of threads are in the middle of their sections; in particular their
handles share slots exactly when their keys agree (`Process.refines_history`).
-/
import BrzMetrics.Atomicity

set_option autoImplicit false

namespace BrzMetrics

open KeyedStore Linearize

/-- Every checked section is one that some public constructor consists of. -/
theorem Access.Checked.public {access : Access} (h : access.Checked) :
    ∃ call : PublicCall, call.accesses = [access] := by
  cases access with
  | record_state name key value => exact ⟨.record_rpc_state name key value, rfl⟩
  | registration op =>
    cases op with
    | register name kind =>
      obtain ⟨hkind, hconn⟩ : kind.rejection = none ∧ kind.is_conn = false := h
      exact ⟨.metric_new kind name, if_pos (by simp [PublicCall.rejection, hkind, hconn])⟩
    | register_resource kind labels =>
      obtain ⟨hkind, hconn⟩ : kind.rejection = none ∧ kind.is_conn = false := h
      exact ⟨.metric_new_resource kind labels, if_pos (by simp [PublicCall.rejection, hkind, hconn])⟩
    | register_profile plan => exact ⟨.register_profile plan, rfl⟩
    | scalar_register kind mode name =>
      cases mode with
      | Counter => exact ⟨.counter_new kind name, if_pos h⟩
      | Gauge => exact ⟨.gauge_new kind name, if_pos h⟩
    | scalar_register_resource kind mode labels =>
      cases mode with
      | Counter => exact ⟨.counter_new_resource kind labels, if_pos h⟩
      | Gauge => exact ⟨.gauge_new_resource kind labels, if_pos h⟩

/-- Checked sections are those of some calls. -/
theorem exists_calls : ∀ accesses : List Access, (∀ access ∈ accesses, access.Checked) →
    ∃ calls : List PublicCall, (calls.map PublicCall.accesses).flatten = accesses
  | [], _ => ⟨[], rfl⟩
  | access :: accesses, h => by
    obtain ⟨call, hcall⟩ := (h access List.mem_cons_self).public
    obtain ⟨calls, hcalls⟩ := exists_calls accesses (fun a ha => h a (List.mem_cons_of_mem _ ha))
    exact ⟨call :: calls, by rw [List.map_cons, List.flatten_cons, hcall, hcalls]; rfl⟩

/-- A section performed by a thread. -/
abbrev Section := Effect ℕ Access (Option Handle)

/-- The registration a section is, with the handle it returns. -/
def issued_by (e : Section) : Option Issued :=
  match e.op, e.result with
  | .registration op, some handle => some (op, handle)
  | .registration _, none => none
  | .record_state _ _ _, _ => none

/-- Sections that a registry performs one after the other are those of a history. -/
theorem perform_legal {first r : Registry} {order : List Section}
    (h : Legal Access.effect first order r) :
    (order.map Effect.op).foldl Access.perform ([], first) = (order.filterMap issued_by, r) := by
  induction h with
  | nil => rfl
  | @snoc order s h client op ih =>
    rw [List.map_append, List.foldl_append, ih, List.filterMap_append]
    cases op with
    | record_state name key value =>
      simp [Access.perform, Access.effect, issued_by]
    | registration op =>
      simp only [List.map_cons, List.map_nil, List.foldl_cons, List.foldl_nil, Access.perform,
        Access.effect, List.filterMap_cons, List.filterMap_nil, issued_by]
      cases op.issue s with
      | ok handle after => rfl
      | error message after => simp

/-- A section that returns a handle is a registration. -/
theorem issued_of_result {first r : Registry} {order : List Section}
    (h : Legal Access.effect first order r) {e : Section} (he : e ∈ order) {handle : Handle}
    (hresult : e.result = some handle) : ∃ op, issued_by e = some (op, handle) := by
  induction h with
  | nil => exact absurd he List.not_mem_nil
  | @snoc order s h client op ih =>
    rcases List.mem_append.mp he with he | he
    · exact ih he
    · obtain rfl := List.mem_singleton.mp he
      cases op with
      | registration op => exact ⟨op, by rw [issued_by, hresult]⟩
      | record_state name key value => exact absurd hresult.symm (Option.some_ne_none handle)

namespace Process

variable {host : Host} {p : Process}

/-- A history whose moment is that of a process. -/
structure Represented (host : Host) (p : Process) (history : History) : Prop where
  shard_hasher : history.shard_hasher = host.shard_hasher
  scalar_hasher : history.scalar_hasher = host.scalar_hasher
  accesses : history.accesses = p.order.map Effect.op
  registry : history.registry p.order.length = p.registry host
  issued : history.issued p.order.length = p.order.filterMap issued_by

/-- The sections of a process are a history. -/
theorem exists_history {schedule : List Move} (hs : new.run host schedule = some p) :
    ∃ history, p.Represented host history := by
  obtain ⟨hreached, hsteps⟩ := run_steps hs
  obtain ⟨calls, hcalls⟩ := exists_calls (p.order.map Effect.op) (by
    intro access haccess
    obtain ⟨e, he, rfl⟩ := List.mem_map.mp haccess
    exact hreached.order e he)
  have hstate : (History.sequential host.shard_hasher host.scalar_hasher calls).state p.order.length
      = (p.order.filterMap issued_by, p.registry host) := by
    have hlegal := perform_legal (AtomicObject.inv_new.steps hsteps).legal
    have haccesses : (History.sequential host.shard_hasher host.scalar_hasher calls).accesses
        = p.order.map Effect.op := hcalls
    rw [History.state, haccesses, List.take_of_length_le (by rw [List.length_map])]
    exact hlegal
  exact ⟨_, rfl, rfl, hcalls, congrArg Prod.snd hstate, congrArg Prod.fst hstate⟩

/-- What a thread has got is the result of one of its sections. -/
theorem issued_of_returned {schedule : List Move} (hs : new.run host schedule = some p)
    {handle : Handle} (h : handle ∈ p.returned) :
    ∃ op, (op, handle) ∈ p.order.filterMap issued_by := by
  obtain ⟨event, hevent, hresult⟩ := List.mem_filterMap.mp h
  cases event with
  | invoke _ _ => cases hresult
  | respond t result =>
    obtain rfl : result = some handle := hresult
    obtain ⟨-, hsteps⟩ := run_steps hs
    have hresponded : some handle ∈ responses t p.history :=
      List.mem_filterMap.mpr ⟨_, hevent, if_pos rfl⟩
    obtain ⟨e, he, heq⟩ := List.mem_map.mp
      (((AtomicObject.linearization hsteps).responded t).subset hresponded)
    obtain ⟨op, hop⟩ := issued_of_result (AtomicObject.inv_new.steps hsteps).legal
      (List.mem_of_mem_filter he) heq
    exact ⟨op, List.mem_filterMap.mpr ⟨e, List.mem_of_mem_filter he, hop⟩⟩

/-- Every moment of a process, in the middle of whatever sections, is that of a history that runs
whole sections one after the other: with the same sections, handles and registry, up to what the
threads that hold mutexes have still to do. So the handles that threads have got, and those they
are about to get, are on one slot exactly when they were asked for under one key. -/
theorem refines_history (host : Host) (schedule : List Move) (p : Process)
    (hrun : Process.new.run host schedule = some p) :
    ∃ history : History, p.Represented host history
      ∧ (∀ i, (p.timing.lanes i).holder = none →
          (p.timing.lanes i).shard = (history.registry p.order.length).shards i)
      ∧ (∀ i, (p.scalars.lanes i).holder = none →
          (p.scalars.lanes i).shard = (history.registry p.order.length).scalars.shards i)
      ∧ (∀ handle ∈ p.returned, ∃ op, history.Returned op handle)
      ∧ ∀ a ∈ p.order.filterMap issued_by, ∀ b ∈ p.order.filterMap issued_by,
          a.2.slot = b.2.slot ↔ a.1.key = b.1.key := by
  obtain ⟨history, hrep⟩ := exists_history hrun
  have hissued : ∀ a ∈ p.order.filterMap issued_by, history.Returned a.1 a.2 :=
    fun a ha => ⟨p.order.length, hrep.issued ▸ ha⟩
  refine ⟨history, hrep, fun i hfree => ?_, fun i hfree => ?_, fun handle hhandle => ?_,
    fun a ha b hb => (hissued a ha).slot_eq_iff (hissued b hb)⟩
  · rw [hrep.registry]
    exact Lane.outcome_of_free hfree
  · rw [hrep.registry]
    exact Lane.outcome_of_free hfree
  · -- what a thread has got is among what the sections return
    obtain ⟨op, hop⟩ := issued_of_returned hrun hhandle
    exact ⟨op, hissued _ hop⟩

/-- Two threads that have got the one slot of a queue, while a third is in the middle of
registering a gauge. -/
theorem queue_represented :
    ∃ p history, Process.new.run Host.seedless
        (queue_twice ++ [.call 2 (.gauge_new .Log "depth"), .enter 2, .lock 2, .access 2]) = some p
      ∧ p.Represented Host.seedless history
      ∧ ∀ handle ∈ p.returned, ∃ op, history.Returned op handle := by
  obtain ⟨p, hp⟩ := Option.isSome_iff_exists.mp (show (Process.new.run Host.seedless (queue_twice
    ++ [.call 2 (.gauge_new .Log "depth"), .enter 2, .lock 2, .access 2])).isSome = true by rfl)
  obtain ⟨history, hrep, -, -, hreturned, -⟩ := refines_history Host.seedless _ p hp
  exact ⟨p, history, hp, hrep, hreturned⟩

end Process

end BrzMetrics
