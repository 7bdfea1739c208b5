/-
The cumulative counters.

`HandleCall` is a call on a handle, and `HandleCall.amount` what it is meant to
add to each counter. The counters are words that `fetch_add` adds to without a
check, so at any point of a run a counter is the exact total of what was added to
it so far, modulo `2 ^ 64` (`state_toNat`). It never decreases exactly as long as
no total exceeds `u64::MAX`: at the first addition that takes a total past it the
word wraps around and falls (`neverDecreases_iff`). Clamping the duration of a
single call does not prevent this.
-/
import BrzMetrics.Scalar
import BrzMetrics.Interleave

set_option autoImplicit false

namespace BrzMetrics

open Interleave

/-! ## Runs of atomic additions -/

/-- Memory after the first `i` operations of a run. -/
def state (ops : List FetchAdd) (i : ℕ) : Memory :=
  (ops.take i).foldl FetchAdd.apply Memory.zero

/-- The exact total of what the operations add to an atomic. -/
def added (ops : List FetchAdd) (atomic : Atomic) : ℕ :=
  (ops.map (fun op => if op.target = atomic then op.operand.toNat else 0)).sum

@[simp] theorem added_nil (atomic : Atomic) : added [] atomic = 0 := rfl

@[simp] theorem added_append (ops ops' : List FetchAdd) (atomic : Atomic) :
    added (ops ++ ops') atomic = added ops atomic + added ops' atomic := by
  simp [added]

@[simp] theorem added_singleton (op : FetchAdd) (atomic : Atomic) :
    added [op] atomic = if op.target = atomic then op.operand.toNat else 0 := by
  simp [added]

/-- The total does not depend on the order. -/
theorem added_perm {ops ops' : List FetchAdd} (h : ops.Perm ops') (atomic : Atomic) :
    added ops atomic = added ops' atomic := (h.map _).sum_eq

/-- Concurrent programs add what each of them has added. -/
theorem added_progress {ι : Type} [DecidableEq ι] [Fintype ι] (steps : List (ι × FetchAdd))
    (atomic : Atomic) :
    added (steps.map Prod.snd) atomic = ∑ i, added (progress steps i) atomic := by
  rw [added, List.map_map]
  exact sum_progress steps
    (fun op : FetchAdd => if op.target = atomic then op.operand.toNat else 0)

/-- An addition wraps around. -/
theorem FetchAdd.apply_toNat (memory : Memory) (op : FetchAdd) (atomic : Atomic) :
    (op.apply memory atomic).toNat = ((memory atomic).toNat + added [op] atomic) % 2 ^ 64 := by
  have hlt := (memory atomic).toNat_lt
  rw [added_singleton]
  by_cases h : op.target = atomic
  · subst h
    rw [if_pos rfl, FetchAdd.apply, Function.update_self, UInt64.toNat_add]
  · rw [if_neg h, FetchAdd.apply, Function.update_of_ne (Ne.symm h), Nat.add_zero,
      Nat.mod_eq_of_lt hlt]

/-- A counter is the exact total added to it, modulo the word size. -/
theorem foldl_apply_toNat (ops : List FetchAdd) (memory : Memory) (atomic : Atomic) :
    (ops.foldl FetchAdd.apply memory atomic).toNat
      = ((memory atomic).toNat + added ops atomic) % 2 ^ 64 := by
  induction ops using List.reverseRecOn with
  | nil =>
    have hlt := (memory atomic).toNat_lt
    rw [List.foldl_nil, added_nil, Nat.add_zero, Nat.mod_eq_of_lt hlt]
  | append_singleton ops op ih =>
    rw [List.foldl_append, List.foldl_cons, List.foldl_nil, FetchAdd.apply_toNat, ih, added_append]
    omega

theorem state_toNat (ops : List FetchAdd) (i : ℕ) (atomic : Atomic) :
    (state ops i atomic).toNat = added (ops.take i) atomic % 2 ^ 64 := by
  rw [state, foldl_apply_toNat, Memory.zero, UInt64.toNat_zero, Nat.zero_add]

/-- Totals grow along a run. -/
theorem added_take_mono (ops : List FetchAdd) (atomic : Atomic) {i j : ℕ} (h : i ≤ j) :
    added (ops.take i) atomic ≤ added (ops.take j) atomic := by
  have hsplit : ops.take j = ops.take i ++ (ops.drop i).take (j - i) := by
    rw [← List.take_add, Nat.add_sub_cancel' h]
  rw [hsplit, added_append]
  exact Nat.le_add_right _ _

theorem added_take_le (ops : List FetchAdd) (atomic : Atomic) (i : ℕ) :
    added (ops.take i) atomic ≤ added ops atomic := by
  conv_rhs => rw [← List.take_append_drop i ops, added_append]
  exact Nat.le_add_right _ _

/-- A single atomic never decreases along a run exactly when its total fits in a word. -/
theorem atomic_mono_iff (ops : List FetchAdd) (atomic : Atomic) :
    (∀ i j, i ≤ j → state ops i atomic ≤ state ops j atomic) ↔ added ops atomic ≤ U64_MAX := by
  constructor
  · intro hmono
    -- up to any point the total fits: one more operation cannot exceed the word without wrapping
    have hfits : ∀ i, added (ops.take i) atomic ≤ U64_MAX := by
      intro i
      induction i with
      | zero => rw [List.take_zero, added_nil]; exact Nat.zero_le _
      | succ i ih =>
        by_cases hi : i < ops.length
        · have hstep := UInt64.le_iff_toNat_le.mp (hmono i (i + 1) (Nat.le_succ i))
          have hop : added [ops[i]] atomic < 2 ^ 64 := by
            rw [added_singleton]
            split_ifs
            · exact UInt64.toNat_lt _
            · decide
          have hnext : added (ops.take (i + 1)) atomic
              = added (ops.take i) atomic + added [ops[i]] atomic := by
            rw [List.take_succ_eq_append_getElem hi, added_append]
          rw [state_toNat, state_toNat] at hstep
          unfold U64_MAX at ih ⊢
          omega
        · have hsame : ops.take (i + 1) = ops.take i := by
            rw [List.take_of_length_le (by omega), List.take_of_length_le (by omega)]
          rw [hsame]
          exact ih
    have hall := hfits ops.length
    rwa [List.take_length] at hall
  · intro hfits i j hij
    have hi := added_take_le ops atomic i
    have hj := added_take_le ops atomic j
    have hmono := added_take_mono ops atomic hij
    rw [UInt64.le_iff_toNat_le, state_toNat, state_toNat]
    unfold U64_MAX at hfits
    omega

/-! ## Calls on handles -/

/-- A call on a handle that adds to counters. -/
inductive HandleCall where
  | record (metric : Metric) (elapsed : Duration) (success : Bool)
  | increment (metric : Metric)
  | add (counter : CounterMetric) (value : UInt64)
  | inc (counter : CounterMetric)
deriving DecidableEq, Repr

namespace HandleCall

/-- The atomic operations of a call, in program order. -/
def ops : HandleCall → List FetchAdd
  | .record metric elapsed success => metric.record elapsed success
  | .increment metric => metric.increment
  | .add counter value => counter.add value
  | .inc counter => counter.inc

/-- The duration a call is recorded with, in microseconds. -/
def clamped (elapsed : Duration) : ℕ := min elapsed.as_micros U64_MAX

/-- What recording an operation adds to a counter of its slot. -/
def recorded (policy : MetricPolicy) (elapsed : Duration) (success : Bool) : SlotField → ℕ
  | .count => 1
  | .elapsed_us => clamped elapsed
  | .slow_count => if policy.spec.slow_threshold_us.toNat ≤ clamped elapsed then 1 else 0
  | .slow_elapsed_us =>
    if policy.spec.slow_threshold_us.toNat ≤ clamped elapsed then clamped elapsed else 0
  | .failure_count => if success then 0 else 1
  | .failure_elapsed_us => if success then 0 else clamped elapsed

/-- What a call adds to a counter: its arguments decide, and nothing else. -/
def amount : HandleCall → Atomic → ℕ
  | .record metric elapsed success, .slot item field =>
    if metric.item = item then recorded metric.policy elapsed success field else 0
  | .increment metric, .slot item field =>
    if metric.item = item ∧ field = .count then 1 else 0
  | .add counter value, .scalar item => if counter.item = item then value.toNat else 0
  | .inc counter, .scalar item => if counter.item = item then 1 else 0
  | _, _ => 0

/-- What recording a duration of `us` adds, counter by counter. The word stays a variable here: the
kernel would otherwise compute with the duration. -/
theorem added_updates (item : ItemPtr) (threshold us : UInt64) (success : Bool) (field : SlotField) :
    added ((if !success then
        [⟨.slot item .failure_count, 1⟩, ⟨.slot item .failure_elapsed_us, us⟩] else []) ++
      [⟨.slot item .elapsed_us, us⟩] ++
      (if threshold ≤ us then
        [⟨.slot item .slow_count, 1⟩, ⟨.slot item .slow_elapsed_us, us⟩] else []) ++
      [⟨.slot item .count, 1⟩]) (.slot item field)
      = match field with
        | .count => 1
        | .elapsed_us => us.toNat
        | .slow_count => if threshold.toNat ≤ us.toNat then 1 else 0
        | .slow_elapsed_us => if threshold.toNat ≤ us.toNat then us.toNat else 0
        | .failure_count => if success then 0 else 1
        | .failure_elapsed_us => if success then 0 else us.toNat := by
  by_cases hslow : threshold ≤ us
  · have hthreshold := UInt64.le_iff_toNat_le.mp hslow
    cases success <;> cases field <;> simp [added, hslow, hthreshold]
  · have hthreshold : ¬ threshold.toNat ≤ us.toNat :=
      fun h => hslow (UInt64.le_iff_toNat_le.mpr h)
    cases success <;> cases field <;> simp [added, hslow, hthreshold]

/-- An operation is recorded in its own slot, by its clamped duration. -/
theorem added_record (metric : Metric) (elapsed : Duration) (success : Bool) (item : ItemPtr)
    (field : SlotField) :
    added (metric.record elapsed success) (.slot item field)
      = if metric.item = item then recorded metric.policy elapsed success field else 0 := by
  by_cases hitem : metric.item = item
  · rw [if_pos hitem, ← hitem, Metric.record, added_updates, Metric.clamped_us_toNat]
    rfl
  · rw [if_neg hitem, Metric.record]
    by_cases hslow : metric.policy.spec.slow_threshold_us ≤ Metric.clamped_us elapsed
    · cases success <;> simp [added, hitem, hslow]
    · cases success <;> simp [added, hitem, hslow]

/-- Recording touches no scalar. -/
theorem added_record_scalar (metric : Metric) (elapsed : Duration) (success : Bool)
    (item : ScalarPtr) : added (metric.record elapsed success) (.scalar item) = 0 := by
  by_cases hslow : metric.policy.spec.slow_threshold_us ≤ Metric.clamped_us elapsed
  · cases success <;> simp [Metric.record, added, hslow]
  · cases success <;> simp [Metric.record, added, hslow]

/-- The operations of a call add up to its amounts. -/
theorem added_ops (call : HandleCall) (atomic : Atomic) :
    added call.ops atomic = call.amount atomic := by
  cases call with
  | record metric elapsed success =>
    cases atomic with
    | slot item field => exact added_record metric elapsed success item field
    | scalar item => exact added_record_scalar metric elapsed success item
  | increment metric =>
    cases atomic with
    | slot item field => simp [ops, Metric.increment, amount, eq_comm]
    | scalar item => simp [ops, Metric.increment, amount]
  | add counter value => cases atomic <;> simp [ops, CounterMetric.add, amount]
  | inc counter => cases atomic <;> simp [ops, CounterMetric.inc, CounterMetric.add, amount]

/-- The operations of many calls, in any order, add up to the amounts of the calls. -/
theorem added_interleaves {calls : List HandleCall} {ops : List FetchAdd}
    (h : Interleaves (calls.map HandleCall.ops) ops) (atomic : Atomic) :
    added ops atomic = (calls.map (fun call => call.amount atomic)).sum := by
  rw [added_perm h.perm]
  clear h
  induction calls with
  | nil => rfl
  | cons call calls ih =>
    rw [List.map_cons, List.flatten_cons, added_append, ih, added_ops, List.map_cons, List.sum_cons]

end HandleCall

/-! ## The counters of a run -/

/-- No counter is ever read lower than at an earlier point of the run. -/
def NeverDecreases (ops : List FetchAdd) : Prop :=
  ∀ i j, i ≤ j →
    (∀ (counter : Counter) (item : ItemPtr),
      counter.read (state ops i) item ≤ counter.read (state ops j) item) ∧
    (∀ counter : CounterMetric, counter.get (state ops i) ≤ counter.get (state ops j))

/-- The counters of the handles are the atomics. -/
theorem neverDecreases_iff_atomic (ops : List FetchAdd) :
    NeverDecreases ops
      ↔ ∀ (atomic : Atomic) (i j : ℕ), i ≤ j → state ops i atomic ≤ state ops j atomic := by
  constructor
  · intro h atomic i j hij
    obtain ⟨hslots, hscalars⟩ := h i j hij
    cases atomic with
    | slot item field =>
      cases field with
      | count => exact hslots .Total item
      | elapsed_us => exact hslots .Elapsed item
      | slow_count => exact hslots .Slow item
      | slow_elapsed_us => exact hslots .SlowElapsed item
      | failure_count => exact hslots .Failure item
      | failure_elapsed_us => exact hslots .FailureElapsed item
    | scalar item => exact hscalars ⟨item⟩
  · intro h i j hij
    exact ⟨fun counter item => h (.slot item counter.field) i j hij,
      fun counter => h (.scalar counter.item) i j hij⟩

/-- However the calls of a run overlap, no counter ever decreases if and only if the amounts that
the calls add to each counter total at most `u64::MAX`. -/
theorem neverDecreases_iff (calls : List HandleCall) (ops : List FetchAdd)
    (h : Interleaves (calls.map HandleCall.ops) ops) :
    NeverDecreases ops
      ↔ ∀ atomic, (calls.map (fun call => call.amount atomic)).sum ≤ U64_MAX := by
  rw [neverDecreases_iff_atomic]
  refine forall_congr' (fun atomic => ?_)
  rw [atomic_mono_iff, HandleCall.added_interleaves h]

/-- A counter handle for the runs below. -/
def requests : CounterMetric := { item := { shard := ⟨0, SHARD_COUNT_pos⟩, chunk := 0, offset := 0 } }

/-- Two calls whose amounts fit, the second one ahead of the first. -/
theorem neverDecreases_requests :
    NeverDecreases [⟨.scalar requests.item, 1⟩, ⟨.scalar requests.item, 5⟩] := by
  refine (neverDecreases_iff [.add requests 5, .inc requests]
    [⟨.scalar requests.item, 1⟩, ⟨.scalar requests.item, 5⟩] ?_).mpr (fun atomic => ?_)
  · -- the second call runs first
    exact @Interleaves.step FetchAdd [[⟨.scalar requests.item, 5⟩]] [] _ [] _
      (@Interleaves.step FetchAdd [] [[]] _ [] _ (.done (by simp)))
  · cases atomic with
    | slot item field => exact Nat.zero_le _
    | scalar item =>
      simp only [List.map_cons, List.map_nil, List.sum_cons, List.sum_nil, HandleCall.amount]
      split_ifs <;> decide

/-- A timing handle for the run below. -/
def service : Metric :=
  { item := { shard := ⟨0, SHARD_COUNT_pos⟩, chunk := 0, offset := 0 }, policy := .Service }

/-- `Duration::MAX`. -/
def Duration.MAX : Duration := ⟨UInt64.ofNat U64_MAX, 999999999, by decide⟩

/-- `Duration::from_micros(1)`. -/
def one_microsecond : Duration := ⟨0, 1000, by decide⟩

/-- One operation of the longest duration and one of a microsecond: the second addition takes the
elapsed counter from `u64::MAX` to zero. -/
theorem record_decreases :
    ¬ ∀ (calls : List HandleCall) (ops : List FetchAdd),
      Interleaves (calls.map HandleCall.ops) ops → NeverDecreases ops := by
  intro hall
  have hrun := hall [.record service Duration.MAX true, .record service one_microsecond true] _
    (Interleaves.sequential _)
  have hread := (hrun 4 5 (by decide)).1 .Elapsed service.item
  have hfirst : (Metric.clamped_us Duration.MAX).toNat = U64_MAX := by
    rw [Metric.clamped_us_toNat]
    decide
  have hsecond : (Metric.clamped_us one_microsecond).toNat = 1 := by
    rw [Metric.clamped_us_toNat]
    decide
  have hslow : service.policy.spec.slow_threshold_us ≤ Metric.clamped_us Duration.MAX := by
    rw [UInt64.le_iff_toNat_le, hfirst]
    decide
  -- the first four operations are the first call's, the fifth adds the microsecond
  rw [UInt64.le_iff_toNat_le, Counter.read, Counter.read, state_toNat, state_toNat] at hread
  simp [HandleCall.ops, Metric.record, hslow, added, hfirst, hsecond, Counter.field, U64_MAX] at hread

end BrzMetrics
