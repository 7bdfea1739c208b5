/-
Recording under any interleaving.

A `Recording` is what calls on the handles of a history have done so far: each
call has run its atomic operations up to some point, in an order of the whole.
A slot then reads the sum of what its calls have contributed
(`Recording.added_eq`), and what a call has contributed at any point is bounded
by the order of its updates: a duration reaches the total before the slow total,
and the count is last (`HandleCall.complete_of_count`).

Once all calls have finished, a slot holds exactly what was recorded on it
(`History.records_exact`). Which durations are slow is decided on truncated and
clamped microseconds, and agrees with the exact duration (`slow_iff`).
-/
import BrzMetrics.History
import BrzMetrics.Cumulative
import BrzMetrics.Saturating

set_option autoImplicit false

namespace BrzMetrics

open Interleave

/-! ## Exact durations -/

/-- `Duration::as_nanos`. -/
def Duration.as_nanos (d : Duration) : ℕ := d.secs.toNat * 1000000000 + d.nanos

/-- Truncating to microseconds. -/
theorem Duration.as_micros_eq (d : Duration) : d.as_micros = d.as_nanos / 1000 := by
  unfold as_micros as_nanos
  omega

/-- The shortest slow operation: 50 ms for resources, 200 ms for services and accesses. -/
def MetricPolicy.slow_nanos : MetricPolicy → ℕ
  | .Resource => 50000000
  | .Service | .Access => 200000000

/-- The threshold in microseconds, which the code compares with. -/
theorem MetricPolicy.slow_threshold (policy : MetricPolicy) :
    policy.spec.slow_threshold_us.toNat * 1000 = policy.slow_nanos := by
  cases policy <;> rfl

theorem MetricPolicy.slow_threshold_le (policy : MetricPolicy) :
    1 ≤ policy.spec.slow_threshold_us.toNat ∧ policy.spec.slow_threshold_us.toNat ≤ U64_MAX := by
  cases policy <;> decide

/-- The truncated and clamped duration reaches the threshold exactly when the duration does. -/
theorem slow_iff (policy : MetricPolicy) (elapsed : Duration) :
    policy.spec.slow_threshold_us.toNat ≤ HandleCall.clamped elapsed
      ↔ policy.slow_nanos ≤ elapsed.as_nanos := by
  have hle := policy.slow_threshold_le
  rw [HandleCall.clamped, elapsed.as_micros_eq, ← policy.slow_threshold]
  omega

/-! ## Snapshots -/

/-- `u64::saturating_sub`. -/
def saturating_sub_u64 (a b : UInt64) : UInt64 := if b ≤ a then a - b else 0

theorem saturating_sub_u64_toNat (a b : UInt64) :
    (saturating_sub_u64 a b).toNat = a.toNat - b.toNat := by
  unfold saturating_sub_u64
  split_ifs with h
  · exact UInt64.toNat_sub_of_le _ _ h
  · rw [UInt64.le_iff_toNat_le] at h
    rw [UInt64.toNat_zero]
    omega

/-- An eventually-consistent view of the counters of a slot. -/
structure MetricSnapshot where
  total : UInt64
  success : UInt64
  failure : UInt64
  elapsed_us : UInt64
  slow : UInt64
  slow_elapsed_us : UInt64
  failure_elapsed_us : UInt64
deriving DecidableEq, Repr

/-- `MetricSnapshot::from_counters`. -/
def MetricSnapshot.from_counters
    (total elapsed_us slow slow_elapsed_us failure failure_elapsed_us : UInt64) :
    MetricSnapshot where
  total := total
  success := saturating_sub_u64 total failure
  failure := failure
  elapsed_us := elapsed_us
  slow := slow
  slow_elapsed_us := slow_elapsed_us
  failure_elapsed_us := failure_elapsed_us

/-- `snapshot`: six loads one after the other. The memory may change between them: load number `i`
runs in `env i`. -/
def snapshot (env : ℕ → Memory) (item : ItemPtr) : MetricSnapshot :=
  let slot := Atomic.slot item
  MetricSnapshot.from_counters
    (env 0 (slot .count))
    (env 1 (slot .elapsed_us))
    (env 2 (slot .slow_count))
    (env 3 (slot .slow_elapsed_us))
    (env 4 (slot .failure_count))
    (env 5 (slot .failure_elapsed_us))

/-- `Metric::snapshot`. -/
def Metric.snapshot (self : Metric) (env : ℕ → Memory) : MetricSnapshot :=
  BrzMetrics.snapshot env self.item

/-! ## Recordings -/

/-- The handle a call is made on. -/
def HandleCall.handle : HandleCall → Handle
  | .record metric _ _ | .increment metric => .metric metric
  | .add counter _ | .inc counter => .counter counter

/-- Calls on handles that a history has returned, and the atomic operations that have run of them
so far, each with its call. -/
structure Recording (history : History) where
  calls : List HandleCall
  steps : List (Fin calls.length × FetchAdd)
  returned : ∀ call ∈ calls, ∃ op, history.Returned op call.handle
  running : Concurrent (fun i => calls[i].ops) steps

namespace Recording

variable {history : History} (self : Recording history)

/-- The atomic operations that have run. -/
def ops : List FetchAdd := self.steps.map Prod.snd

/-- Memory after the first `t` operations. -/
def memory (t : ℕ) : Memory := state self.ops t

/-- Memory after all operations that have run. -/
def now : Memory := self.memory self.steps.length

/-- All calls have returned. -/
def Finished : Prop := ∀ i, progress self.steps i = self.calls[i].ops

/-- The recording as it was after `t` operations. -/
def upto (t : ℕ) : Recording history where
  calls := self.calls
  steps := self.steps.take t
  returned := self.returned
  running := self.running.take t

/-- Every point of a recording is the end of one. -/
theorem memory_eq (t : ℕ) : self.memory t = (self.upto t).now := by
  have hops : (self.upto t).ops = self.ops.take t := List.map_take
  have hlength : (self.ops.take t).length ≤ (self.upto t).steps.length := by simp [ops, upto]
  rw [now, memory, memory, state, state, hops, List.take_of_length_le hlength]

/-- A counter is the sum of what the calls have contributed, modulo the word size. -/
theorem added_eq (atomic : Atomic) :
    added self.ops atomic = ∑ i, added (progress self.steps i) atomic :=
  added_progress self.steps atomic

theorem now_toNat (atomic : Atomic) :
    (self.now atomic).toNat = added self.ops atomic % 2 ^ 64 := by
  rw [now, memory, state_toNat, List.take_of_length_le (by simp [ops])]

/-- Once all calls have returned a counter is the sum of their amounts, modulo the word size. -/
theorem Finished.now_toNat {self : Recording history} (h : self.Finished) (atomic : Atomic) :
    (self.now atomic).toNat
      = (self.calls.map (fun call => call.amount atomic)).sum % 2 ^ 64 := by
  have hcall : ∀ i, added (progress self.steps i) atomic = (self.calls[i]).amount atomic :=
    fun i => by rw [h i, HandleCall.added_ops]
  rw [Recording.now_toNat, added_eq, Finset.sum_congr rfl (fun i _ => hcall i)]
  exact congrArg (· % 2 ^ 64)
    (Fin.sum_univ_fun_getElem self.calls (fun call => call.amount atomic))

end Recording

/-! ## What was recorded on a slot -/

namespace HandleCall

/-- The operation a call records on a slot: its duration, and whether it succeeded. -/
def operation (item : ItemPtr) : HandleCall → Option (Duration × Bool)
  | .record metric elapsed success => if metric.item = item then some (elapsed, success) else none
  | .increment _ | .add _ _ | .inc _ => none

/-- Whether a call counts an occurrence on a slot without recording it. -/
def occurrence (item : ItemPtr) : HandleCall → Bool
  | .increment metric => metric.item = item
  | .record _ _ _ | .add _ _ | .inc _ => false

/-- A call on another slot leaves a slot alone. -/
theorem amount_of_slot_ne {call : HandleCall} {item : ItemPtr}
    (h : call.handle.slot ≠ .timing item) (field : SlotField) :
    call.amount (.slot item field) = 0 := by
  cases call with
  | record metric elapsed success =>
    exact if_neg (fun heq => h (congrArg SlotPtr.timing heq))
  | increment metric => exact if_neg (fun heq => h (congrArg SlotPtr.timing heq.1))
  | add counter value => rfl
  | inc counter => rfl

end HandleCall

/-- The operations that calls record on a slot. -/
def operations (calls : List HandleCall) (item : ItemPtr) : List (Duration × Bool) :=
  calls.filterMap (HandleCall.operation item)

/-- How many occurrences calls count on a slot. -/
def occurrences (calls : List HandleCall) (item : ItemPtr) : ℕ :=
  calls.countP (HandleCall.occurrence item)

theorem operations_cons (call : HandleCall) (calls : List HandleCall) (item : ItemPtr) :
    operations (call :: calls) item = (call.operation item).toList ++ operations calls item := by
  rw [operations, List.filterMap_cons]
  cases call.operation item <;> rfl

theorem occurrences_cons (call : HandleCall) (calls : List HandleCall) (item : ItemPtr) :
    occurrences (call :: calls) item
      = occurrences calls item + if call.occurrence item then 1 else 0 := List.countP_cons

/-- What calls add to a counter of a slot whose handles carry `policy`. -/
theorem sum_amount {calls : List HandleCall} {item : ItemPtr} {policy : MetricPolicy}
    (hpolicy : ∀ call ∈ calls, ∀ metric : Metric, call.handle = .metric metric →
      metric.item = item → metric.policy = policy) (field : SlotField) :
    (calls.map (fun call => call.amount (.slot item field))).sum
      = ((operations calls item).map
          (fun o => HandleCall.recorded policy o.1 o.2 field)).sum
        + (if field = .count then occurrences calls item else 0) := by
  induction calls with
  | nil => simp [operations, occurrences]
  | cons call calls ih =>
    have hcall := hpolicy call List.mem_cons_self
    rw [List.map_cons, List.sum_cons, ih (fun c hc => hpolicy c (List.mem_cons_of_mem _ hc)),
      operations_cons, occurrences_cons, List.map_append, List.sum_append]
    cases call with
    | record metric elapsed success =>
      by_cases hitem : metric.item = item
      · -- a record counts once, as an operation; on any other slot it counts nothing
        simp [HandleCall.amount, HandleCall.operation, HandleCall.occurrence, hitem,
          hcall metric rfl hitem, Nat.add_assoc]
      · simp [HandleCall.amount, HandleCall.operation, HandleCall.occurrence, hitem]
    | increment metric =>
      by_cases hitem : metric.item = item <;> by_cases hfield : field = .count <;>
        simp [HandleCall.amount, HandleCall.operation, HandleCall.occurrence, hitem, hfield]
      all_goals omega
    | add counter value | inc counter =>
      simp [HandleCall.amount, HandleCall.operation, HandleCall.occurrence]

/-- Slow operations are told apart by their exact durations. -/
theorem sum_recorded_slow (policy : MetricPolicy) (operations : List (Duration × Bool))
    (f : Duration → ℕ) :
    (operations.map (fun o =>
        if policy.spec.slow_threshold_us.toNat ≤ HandleCall.clamped o.1 then f o.1 else 0)).sum
      = ((operations.filter (fun o => policy.slow_nanos ≤ o.1.as_nanos)).map
          (fun o => f o.1)).sum := by
  rw [sum_map_ite operations (fun o => policy.spec.slow_threshold_us.toNat ≤ HandleCall.clamped o.1)
    (fun o => f o.1)]
  exact congrArg (fun l => (List.map _ l).sum)
    (List.filter_congr (fun o _ => decide_eq_decide.mpr (slow_iff policy o.1)))

theorem sum_recorded_failed (operations : List (Duration × Bool)) (f : Duration → ℕ) :
    (operations.map (fun o => if o.2 then 0 else f o.1)).sum
      = ((operations.filter (fun o => !o.2)).map (fun o => f o.1)).sum := by
  have hswap : ∀ o : Duration × Bool, (if o.2 then 0 else f o.1) = if (!o.2) = true then f o.1 else 0 := by
    rintro ⟨d, success⟩
    cases success <;> rfl
  rw [List.map_congr_left (fun o _ => hswap o), sum_map_ite]
  simp

/-- Operations either succeeded or failed. -/
theorem length_succeeded_add_failed (operations : List (Duration × Bool)) :
    (operations.filter (fun o => o.2)).length + (operations.filter (fun o => !o.2)).length
      = operations.length := by
  have h := List.length_eq_length_filter_add (l := operations) (fun o => o.2)
  omega

/-- Recording is exact under any interleaving. Once all calls have finished, the counters of a slot
are, modulo `2 ^ 64`: the number of calls on it, of failed and of slow operations, and the sums of
the truncated durations of all, of the failed and of the slow operations, where an operation is
slow by its exact duration and the policy of the slot, whichever handle recorded it. Slots of keys
that no call was made on are as they were, and without a wrap a snapshot's successes are the
occurrences and the successful operations. -/
theorem History.records_exact (history : History) (r : Recording history) (hfinished : r.Finished) :
    (∀ op metric, history.Returned op (.metric metric) →
      let read := fun field => (r.now (.slot metric.item field)).toNat
      let all := operations r.calls metric.item
      let failed := all.filter (fun o => !o.2)
      let slow := all.filter (fun o => metric.policy.slow_nanos ≤ o.1.as_nanos)
      let total_us := fun os : List (Duration × Bool) =>
        (os.map (fun o => min (o.1.as_nanos / 1000) (2 ^ 64 - 1))).sum
      read .count = (all.length + occurrences r.calls metric.item) % 2 ^ 64
      ∧ read .failure_count = failed.length % 2 ^ 64
      ∧ read .slow_count = slow.length % 2 ^ 64
      ∧ read .elapsed_us = total_us all % 2 ^ 64
      ∧ read .failure_elapsed_us = total_us failed % 2 ^ 64
      ∧ read .slow_elapsed_us = total_us slow % 2 ^ 64
      ∧ (all.length + occurrences r.calls metric.item < 2 ^ 64 →
          (metric.snapshot (fun _ => r.now)).success.toNat
            = occurrences r.calls metric.item + (all.filter (fun o => o.2)).length))
    ∧ ∀ op metric, history.Returned op (.metric metric) →
        (∀ call ∈ r.calls, ∀ op', history.Returned op' call.handle → op'.key ≠ op.key) →
        ∀ field, r.now (.slot metric.item field) = Memory.zero (.slot metric.item field) := by
  constructor
  · intro op metric hreturned
    dsimp only
    -- whichever handle made a call on this slot, it has the policy of this one
    have hpolicy : ∀ call ∈ r.calls, ∀ metric' : Metric, call.handle = .metric metric' →
        metric'.item = metric.item → metric'.policy = metric.policy := by
      intro call hcall metric' hhandle hitem
      obtain ⟨op', hop'⟩ := r.returned call hcall
      rw [hhandle] at hop'
      exact hop'.policy_eq hreturned hitem
    have hread : ∀ field, (r.now (.slot metric.item field)).toNat
        = (((operations r.calls metric.item).map
            (fun o => HandleCall.recorded metric.policy o.1 o.2 field)).sum
          + if field = .count then occurrences r.calls metric.item else 0) % 2 ^ 64 :=
      fun field => by rw [hfinished.now_toNat, sum_amount hpolicy]
    -- the durations of the statement are the ones the code clamps
    have hclamped : ∀ d : Duration, min (d.as_nanos / 1000) (2 ^ 64 - 1) = HandleCall.clamped d :=
      fun d => by rw [HandleCall.clamped, d.as_micros_eq]; rfl
    simp only [hclamped]
    have hcount := hread .count
    have hfailed := hread .failure_count
    have hslow := hread .slow_count
    have helapsed := hread .elapsed_us
    have hfailed_us := hread .failure_elapsed_us
    have hslow_us := hread .slow_elapsed_us
    simp only [HandleCall.recorded, if_true, reduceCtorEq, if_false, Nat.add_zero,
      sum_recorded_slow metric.policy _ (fun _ => 1), sum_recorded_failed _ (fun _ => 1),
      List.map_const', List.sum_replicate, smul_eq_mul, mul_one] at hcount hfailed hslow
    simp only [HandleCall.recorded, reduceCtorEq, if_false, Nat.add_zero,
      sum_recorded_slow metric.policy _ HandleCall.clamped,
      sum_recorded_failed _ HandleCall.clamped] at helapsed hfailed_us hslow_us
    refine ⟨hcount, hfailed, hslow, helapsed, hfailed_us, hslow_us, fun hfits => ?_⟩
    -- the successes are what is left of the count, which cannot have wrapped
    have hsplit := length_succeeded_add_failed (operations r.calls metric.item)
    have hsuccess : (metric.snapshot (fun _ => r.now)).success.toNat
        = (r.now (.slot metric.item .count)).toNat
          - (r.now (.slot metric.item .failure_count)).toNat := saturating_sub_u64_toNat _ _
    rw [hsuccess, hcount, hfailed, Nat.mod_eq_of_lt hfits, Nat.mod_eq_of_lt (by omega)]
    omega
  · intro op metric hreturned hother field
    refine UInt64.toNat_inj.mp ?_
    -- keys tell slots apart, so every call was made on another slot
    have hzero : ∀ call ∈ r.calls, call.amount (.slot metric.item field) = 0 := by
      intro call hcall
      obtain ⟨op', hop'⟩ := r.returned call hcall
      refine HandleCall.amount_of_slot_ne (fun hslot => ?_) field
      exact hother call hcall op' hop' ((hop'.slot_eq_iff hreturned).mp hslot)
    rw [hfinished.now_toNat, List.sum_eq_zero]
    · rfl
    · intro x hx
      obtain ⟨call, hcall, rfl⟩ := List.mem_map.mp hx
      exact hzero call hcall

/-- Calls that do not overlap. -/
def Recording.sequential (history : History) (calls : List HandleCall)
    (returned : ∀ call ∈ calls, ∃ op, history.Returned op call.handle) : Recording history where
  calls := calls
  steps := one_by_one (fun i => calls[i].ops)
  returned := returned
  running := fun i => by rw [progress_one_by_one]

theorem Recording.sequential_finished (history : History) (calls : List HandleCall)
    (returned : ∀ call ∈ calls, ∃ op, history.Returned op call.handle) :
    (Recording.sequential history calls returned).Finished :=
  fun i => progress_one_by_one (fun j : Fin calls.length => calls[j].ops) i

/-- A process that registers one log queue. -/
def logging : History := History.sequential ⟨fun _ => 0⟩ ⟨fun _ => 0⟩ [.log "queue"]

/-- The handle of the queue. -/
def queue : Metric := Metric.from_item ⟨⟨0, SHARD_COUNT_pos⟩, 0, 0⟩ .Resource

theorem queue_returned : logging.Returned (.register "queue" .Log) (.metric queue) :=
  ⟨1, List.mem_singleton.mpr rfl⟩

/-- A dropped message, and one that failed after exactly 50 ms. -/
def queue_calls : List HandleCall :=
  [.increment queue, .record queue ⟨0, 50000000, by decide⟩ false]

theorem queue_calls_returned : ∀ call ∈ queue_calls, ∃ op, logging.Returned op call.handle := by
  intro call hcall
  refine ⟨.register "queue" .Log, ?_⟩
  rcases List.mem_cons.mp hcall with rfl | hcall
  · exact queue_returned
  · rw [List.mem_singleton.mp hcall]
    exact queue_returned

/-- Two calls that drop a message of the queue. -/
theorem queue_drops_returned :
    ∀ call ∈ [HandleCall.increment queue, .increment queue],
      ∃ op, logging.Returned op call.handle := by
  intro call hcall
  rw [List.eq_of_mem_replicate (n := 2) hcall]
  exact ⟨.register "queue" .Log, queue_returned⟩

/-- Two calls on the queue, of which the second is slow. -/
theorem queue_records_exact :
    let r := Recording.sequential logging queue_calls queue_calls_returned
    (r.now (.slot queue.item .count)).toNat = 2
      ∧ (r.now (.slot queue.item .slow_count)).toNat = 1 := by
  obtain ⟨hcount, -, hslow, -⟩ :=
    (History.records_exact logging
      (Recording.sequential logging queue_calls queue_calls_returned)
      (Recording.sequential_finished logging queue_calls queue_calls_returned)).1 _ queue
        queue_returned
  exact ⟨hcount, hslow⟩

end BrzMetrics
