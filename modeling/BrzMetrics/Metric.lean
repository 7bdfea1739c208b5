/-
The timing half of `src/src/metric.rs`, with the two enumerations of
`src/src/plan.rs` it reads: metric kinds and what each is exported as, the six
atomics of a slot, and the atomic updates `record` and `increment` make.

A handle is a `Copy` value (`Metric`) holding a pointer to a slot. The slots
themselves are shared memory, so they are not part of the handle here either:
a slot is six addresses (`Atomic.slot item field`), memory is a function from
addresses to 64-bit words, and an update is the list of `fetch_add`s the source
issues, in program order. Concurrency is then a matter of interleaving those
lists, and a call running alone is the list run from front to back.
-/
import BrzMetrics.Resource

set_option autoImplicit false

namespace BrzMetrics

/-! ## Kinds -/

/-- Business resource metric category, independent of the exported metric name. -/
inductive ResourceMetric where
  | Req
  | Conn
deriving DecidableEq, Repr

/-- Business identity supplied by producers when registering a metric. -/
inductive MetricType where
  | Log
  | Redis (resource : ResourceMetric)
  | Mysql (resource : ResourceMetric)
  | Memcache (resource : ResourceMetric)
  | McDetail
  | Http (resource : ResourceMetric)
  | HttpAll
  | ApiAll
  | Api (code : UInt16)
  | Api3xx
  | Api4xx
  | Api5xx
  | ApiTimeout
  | Rpc (resource : ResourceMetric)
  | Service (resource : ResourceMetric)
  | SocketIo (resource : ResourceMetric)
  | RpcServiceWhole
deriving DecidableEq, Repr

/-- Counter policy applied by `Metric::record` (`plan.rs`). -/
inductive MetricPolicy where
  | Resource
  | Service
  | Access
deriving DecidableEq, Repr

/-- Legacy profile format marker (`plan.rs`). -/
inductive ProfileFormat where
  | Resource
  | AccessStatistic
deriving DecidableEq, Repr

namespace MetricType

/-- `MetricType::is_conn`. -/
def is_conn : MetricType → Bool
  | .Redis .Conn | .Mysql .Conn | .Memcache .Conn | .Http .Conn
  | .Rpc .Conn | .Service .Conn | .SocketIo .Conn => true
  | _ => false

/-- `(100..=599).contains(&code)`. -/
def valid_code (code : UInt16) : Bool := 100 ≤ code.toNat && code.toNat ≤ 599

/-- `MetricType::validate`: the message of the assertion that fails, if one does. -/
def validate : MetricType → Except String Unit
  | .Api code => if valid_code code then .ok () else .error "invalid HTTP status code"
  | _ => .ok ()

/-- `MetricType::policy`. -/
def policy : MetricType → MetricPolicy
  | .Log | .Redis _ | .Mysql _ | .Memcache _ | .McDetail | .Http _ => .Resource
  | .HttpAll | .Service _ | .SocketIo _ | .ApiAll | .Api _ | .Api3xx | .Api4xx
  | .Api5xx | .ApiTimeout => .Service
  | .Rpc _ | .RpcServiceWhole => .Access

/-- `MetricType::output`: the exported type and the legacy format marker. -/
def output : MetricType → String × ProfileFormat
  | .Log => ("LOG", .Resource)
  | .Redis _ => ("REDIS", .Resource)
  | .Mysql _ => ("MYSQL", .Resource)
  | .Memcache _ => ("MC", .Resource)
  | .McDetail => ("MCDETAIL", .Resource)
  | .Http _ | .HttpAll => ("HTTP", .Resource)
  | .ApiAll => ("API", .Resource)
  | .Api _ => ("API_RESPONSE", .Resource)
  | .Api3xx => ("API3XX", .Resource)
  | .Api4xx => ("API4XX", .Resource)
  | .Api5xx => ("API5XX", .Resource)
  | .ApiTimeout => ("APITO", .Resource)
  | .Service _ => ("SERVICE", .Resource)
  | .SocketIo _ => ("SOCKET_IO", .Resource)
  | .Rpc _ => ("RPC", .AccessStatistic)
  | .RpcServiceWhole => ("RPC_SERVICE_WHOLE", .AccessStatistic)

/-- `API` is the exported type of `ApiAll` and of no other kind. -/
theorem output_eq_api (kind : MetricType) : kind.output.1 = "API" ↔ kind = .ApiAll := by
  cases kind <;> simp [output]

end MetricType

/-- `MetricSpec`. -/
structure MetricSpec where
  slow_threshold_us : UInt64
deriving DecidableEq, Repr

/-- `MetricPolicy::spec`. -/
def MetricPolicy.spec : MetricPolicy → MetricSpec
  | .Resource => { slow_threshold_us := 50000 }
  | .Service | .Access => { slow_threshold_us := 200000 }

/-! ## Shared memory

`SHARD_COUNT` shards own the slots. A shard's slot chunks are boxed arrays that
never move, so a chunk is named by its shard and its position in that shard's
`slots` vector, and a slot by the chunk and its offset there. -/

/-- `registry::CHUNK_SIZE`. -/
def CHUNK_SIZE : ℕ := 256

/-- `registry::SHARD_COUNT`, and `scalar::SHARDS`. -/
def SHARD_COUNT : ℕ := 64

theorem CHUNK_SIZE_pos : 0 < CHUNK_SIZE := by decide

theorem SHARD_COUNT_pos : 0 < SHARD_COUNT := by decide

/-- The address of a timing slot: `ItemPtr(NonNull<Slot>)`. -/
structure ItemPtr where
  shard : Fin SHARD_COUNT
  chunk : ℕ
  offset : ℕ
deriving DecidableEq, Repr

/-- The address of a scalar slot: `ScalarPtr(NonNull<ScalarSlot>)`. -/
structure ScalarPtr where
  shard : Fin SHARD_COUNT
  chunk : ℕ
  offset : ℕ
deriving DecidableEq, Repr

/-- The fields of `Slot`, each an `AtomicU64`. -/
inductive SlotField where
  | count
  | elapsed_us
  | slow_count
  | slow_elapsed_us
  | failure_count
  | failure_elapsed_us
deriving DecidableEq, Repr

/-- One `AtomicU64`: a field of a timing slot, or a scalar slot. -/
inductive Atomic where
  | slot (item : ItemPtr) (field : SlotField)
  | scalar (item : ScalarPtr)
deriving DecidableEq, Repr

/-- The contents of every slot. `Slot::default()` and `ScalarSlot::default()` are all zero. -/
abbrev Memory := Atomic → UInt64

/-- Memory before any update. -/
def Memory.zero : Memory := fun _ => 0

/-- One atomic read-modify-write, `atomic.fetch_add(operand, Ordering::Relaxed)`. -/
structure FetchAdd where
  target : Atomic
  operand : UInt64
deriving DecidableEq, Repr

/-- `fetch_add` wraps around at the type's boundary, as `UInt64` addition does. -/
def FetchAdd.apply (memory : Memory) (op : FetchAdd) : Memory :=
  Function.update memory op.target (memory op.target + op.operand)

/-! ## Handles -/

/-- `std::time::Duration`: whole seconds and a sub-second part below one second. -/
structure Duration where
  secs : UInt64
  nanos : ℕ
  nanos_lt : nanos < 1000000000
deriving DecidableEq, Repr

/-- `Duration::as_micros`, a `u128` in the source. -/
def Duration.as_micros (d : Duration) : ℕ := d.secs.toNat * 1000000 + d.nanos / 1000

/-- `u64::MAX`. -/
def U64_MAX : ℕ := 2 ^ 64 - 1

/-- Copyable handle used by the record hot path. -/
structure Metric where
  item : ItemPtr
  policy : MetricPolicy
deriving DecidableEq, Repr

namespace Metric

/-- `Metric::from_item`. -/
def from_item (item : ItemPtr) (policy : MetricPolicy) : Metric := { item := item, policy := policy }

/-- `elapsed.as_micros().min(u64::MAX as u128) as u64`. -/
def clamped_us (elapsed : Duration) : UInt64 := UInt64.ofNat (min elapsed.as_micros U64_MAX)

/-- `Metric::record`: the `fetch_add`s of one completed operation, in program order.
The total is updated last. -/
def record (self : Metric) (elapsed : Duration) (success : Bool) : List FetchAdd :=
  let slot := Atomic.slot self.item
  let profile := self.policy.spec
  let elapsed_us := clamped_us elapsed
  (if !success then
    [⟨slot .failure_count, 1⟩, ⟨slot .failure_elapsed_us, elapsed_us⟩] else []) ++
  [⟨slot .elapsed_us, elapsed_us⟩] ++
  (if profile.slow_threshold_us ≤ elapsed_us then
    [⟨slot .slow_count, 1⟩, ⟨slot .slow_elapsed_us, elapsed_us⟩] else []) ++
  [⟨slot .count, 1⟩]

/-- `Metric::increment`: only the total count changes. -/
def increment (self : Metric) : List FetchAdd := [⟨.slot self.item .count, 1⟩]

end Metric

/-- The clamp keeps the value below the type's bound, so the cast loses nothing. -/
theorem Metric.clamped_us_toNat (elapsed : Duration) :
    (Metric.clamped_us elapsed).toNat = min elapsed.as_micros U64_MAX := by
  rw [Metric.clamped_us, UInt64.toNat_ofNat_of_lt']
  unfold U64_MAX
  simp only [UInt64.size]
  omega

/-! ## Reading a slot -/

/-- The six exported counters, ordered by Prometheus metric family. -/
inductive Counter where
  | Total
  | Failure
  | Slow
  | Elapsed
  | FailureElapsed
  | SlowElapsed
deriving DecidableEq, Repr

/-- The slot field `Counter::read` loads. -/
def Counter.field : Counter → SlotField
  | .Total => .count
  | .Failure => .failure_count
  | .Slow => .slow_count
  | .Elapsed => .elapsed_us
  | .FailureElapsed => .failure_elapsed_us
  | .SlowElapsed => .slow_elapsed_us

/-- `Counter::read`. -/
def Counter.read (self : Counter) (memory : Memory) (item : ItemPtr) : UInt64 :=
  memory (.slot item self.field)

end BrzMetrics
