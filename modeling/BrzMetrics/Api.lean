/-
The public constructors of `src/src/lib.rs`, `src/src/metric.rs` and
`src/src/scalar.rs`, all of which work on the one process-wide registry.

A constructor checks its arguments and then registers, `ConnMetric` twice. The
checks come first, so a constructor that panics has not touched the registry
(`PublicCall.run_eq`). Each registration and each state record is one critical
section, an `Access`.
-/
import BrzMetrics.RegistryStore

set_option autoImplicit false

namespace BrzMetrics

/-! ## The constructors -/

/-- `assert!(condition, message)`: a panic that leaves the state as it is. -/
def ensure {σ : Type} (condition : Bool) (message : String) : EStateM String σ Unit :=
  if condition then pure () else throw message

/-- The message of `assert!((100..=599).contains(&code), ..)`. -/
def invalid_status_code : String := "invalid HTTP status code"

namespace Metric

/-- `Metric::new`. -/
def new (kind : MetricType) (name : String) : EStateM String Registry Metric := do
  ScalarRegistry.validate kind
  ensure (!kind.is_conn) "connection values use CounterMetric/GaugeMetric/ConnMetric"
  Registry.register name kind

/-- `Metric::new_resource`. -/
def new_resource (kind : MetricType) (labels : ResourceLabels) :
    EStateM String Registry Metric := do
  ScalarRegistry.validate kind
  ensure (!kind.is_conn) "connection values use ConnMetric"
  Registry.register_resource kind labels

/-- `Metric::register_single`: no check. -/
def register_single (name : String) (metric_type : MetricType) : EStateM String Registry Metric :=
  Registry.register name metric_type

def log (name : String) := register_single name .Log
def redis (name : String) := register_single name (.Redis .Req)
def mysql (name : String) := register_single name (.Mysql .Req)
def mc (name : String) := register_single name (.Memcache .Req)
def mc_detail (name : String) := register_single name .McDetail
def http (name : String) := register_single name (.Http .Req)
def http_all (name : String) := register_single name .HttpAll
def api (name : String) := register_single name .ApiAll

/-- `Metric::api_status` checks the code itself. -/
def api_status (name : String) (status_code : UInt16) : EStateM String Registry Metric := do
  ensure (MetricType.valid_code status_code) invalid_status_code
  register_single name (.Api status_code)

def api_3xx (name : String) := register_single name .Api3xx
def api_4xx (name : String) := register_single name .Api4xx
def api_5xx (name : String) := register_single name .Api5xx
def api_timeout (name : String) := register_single name .ApiTimeout
def service (name : String) := register_single name (.Service .Req)
def rpc_service_whole (name : String) := register_single name .RpcServiceWhole

end Metric

/-- `CounterMetric::new`. -/
def CounterMetric.new (kind : MetricType) (name : String) :
    EStateM String Registry CounterMetric :=
  return { item := ← Registry.on_scalars (ScalarRegistry.register kind .Counter name) }

/-- `CounterMetric::new_resource`. -/
def CounterMetric.new_resource (kind : MetricType) (labels : ResourceLabels) :
    EStateM String Registry CounterMetric :=
  return { item := ← Registry.on_scalars (ScalarRegistry.register_resource kind .Counter labels) }

/-- `GaugeMetric::new`. -/
def GaugeMetric.new (kind : MetricType) (name : String) : EStateM String Registry GaugeMetric :=
  return { item := ← Registry.on_scalars (ScalarRegistry.register kind .Gauge name) }

/-- `GaugeMetric::new_resource`. -/
def GaugeMetric.new_resource (kind : MetricType) (labels : ResourceLabels) :
    EStateM String Registry GaugeMetric :=
  return { item := ← Registry.on_scalars (ScalarRegistry.register_resource kind .Gauge labels) }

/-- Current connections plus cumulative successful establishments. -/
structure ConnMetric where
  current : GaugeMetric
  total : CounterMetric
deriving DecidableEq, Repr

/-- `ConnMetric::connected`. -/
def ConnMetric.connected (self : ConnMetric) : List FetchAdd := self.current.inc ++ self.total.inc

/-- `ConnMetric::disconnected`. -/
def ConnMetric.disconnected (self : ConnMetric) : List FetchAdd := self.current.dec

/-- The message of `ConnMetric`'s assertion. -/
def not_a_connection : String := "ConnMetric requires a resource's Conn category"

/-- `ConnMetric::new`. -/
def ConnMetric.new (kind : MetricType) (name : String) : EStateM String Registry ConnMetric := do
  ensure kind.is_conn not_a_connection
  return { current := ← GaugeMetric.new kind name, total := ← CounterMetric.new kind name }

/-- `ConnMetric::new_resource`. -/
def ConnMetric.new_resource (kind : MetricType) (labels : ResourceLabels) :
    EStateM String Registry ConnMetric := do
  ensure kind.is_conn not_a_connection
  return { current := ← GaugeMetric.new_resource kind labels,
           total := ← CounterMetric.new_resource kind labels }

/-- `record_rpc_state`, given the texts that `Display` prints. -/
def record_rpc_state (name key value : String) : EStateM String Registry Unit :=
  modify (fun registry => registry.record_state .Rpc name key value)

/-! ## Calls and critical sections -/

/-- A call of a public function that changes the registry. -/
inductive PublicCall where
  | metric_new (kind : MetricType) (name : String)
  | metric_new_resource (kind : MetricType) (labels : ResourceLabels)
  | log (name : String)
  | redis (name : String)
  | mysql (name : String)
  | mc (name : String)
  | mc_detail (name : String)
  | http (name : String)
  | http_all (name : String)
  | api (name : String)
  | api_status (name : String) (status_code : UInt16)
  | api_3xx (name : String)
  | api_4xx (name : String)
  | api_5xx (name : String)
  | api_timeout (name : String)
  | service (name : String)
  | rpc_service_whole (name : String)
  | register_profile (plan : ProfilePlan)
  | counter_new (kind : MetricType) (name : String)
  | counter_new_resource (kind : MetricType) (labels : ResourceLabels)
  | gauge_new (kind : MetricType) (name : String)
  | gauge_new_resource (kind : MetricType) (labels : ResourceLabels)
  | conn_new (kind : MetricType) (name : String)
  | conn_new_resource (kind : MetricType) (labels : ResourceLabels)
  | record_rpc_state (name key value : String)
deriving DecidableEq, Repr

/-- A handle of any type. -/
inductive Handle where
  | metric (handle : Metric)
  | counter (handle : CounterMetric)
  | gauge (handle : GaugeMetric)
deriving DecidableEq, Repr

/-- The slot behind a handle. -/
def Handle.slot : Handle → SlotPtr
  | .metric handle => .timing handle.item
  | .counter handle => .scalar handle.item
  | .gauge handle => .scalar handle.item

/-- A registration, with the handle that is made of the slot it returns. -/
def Registration.issue : Registration → EStateM String Registry Handle
  | .register name kind => return .metric (← Registry.register name kind)
  | .register_resource kind labels => return .metric (← Registry.register_resource kind labels)
  | .register_profile plan => return .metric (← Registry.register_profile plan)
  | .scalar_register kind .Counter name => return .counter (← CounterMetric.new kind name)
  | .scalar_register kind .Gauge name => return .gauge (← GaugeMetric.new kind name)
  | .scalar_register_resource kind .Counter labels =>
    return .counter (← CounterMetric.new_resource kind labels)
  | .scalar_register_resource kind .Gauge labels =>
    return .gauge (← GaugeMetric.new_resource kind labels)

/-- One critical section: a registration under the mutex of a shard, or a record under the mutex
of the states. -/
inductive Access where
  | registration (op : Registration)
  | record_state (name key value : String)
deriving DecidableEq, Repr

/-- Run a critical section. -/
def Access.run : Access → EStateM String Registry (List Handle)
  | .registration op => return [← op.issue]
  | .record_state name key value => do
    record_rpc_state name key value
    return []

/-- Critical sections one after the other. -/
def Access.run_all : List Access → EStateM String Registry (List Handle)
  | [] => return []
  | access :: accesses => do
    let handles ← access.run
    return handles ++ (← run_all accesses)

/-- The two handles of a connection metric. -/
def ConnMetric.handles (self : ConnMetric) : List Handle := [.gauge self.current, .counter self.total]

namespace PublicCall

/-- Run a call. A connection metric is two handles. -/
def run : PublicCall → EStateM String Registry (List Handle)
  | .metric_new kind name => return [.metric (← Metric.new kind name)]
  | .metric_new_resource kind labels => return [.metric (← Metric.new_resource kind labels)]
  | .log name => return [.metric (← Metric.log name)]
  | .redis name => return [.metric (← Metric.redis name)]
  | .mysql name => return [.metric (← Metric.mysql name)]
  | .mc name => return [.metric (← Metric.mc name)]
  | .mc_detail name => return [.metric (← Metric.mc_detail name)]
  | .http name => return [.metric (← Metric.http name)]
  | .http_all name => return [.metric (← Metric.http_all name)]
  | .api name => return [.metric (← Metric.api name)]
  | .api_status name status_code => return [.metric (← Metric.api_status name status_code)]
  | .api_3xx name => return [.metric (← Metric.api_3xx name)]
  | .api_4xx name => return [.metric (← Metric.api_4xx name)]
  | .api_5xx name => return [.metric (← Metric.api_5xx name)]
  | .api_timeout name => return [.metric (← Metric.api_timeout name)]
  | .service name => return [.metric (← Metric.service name)]
  | .rpc_service_whole name => return [.metric (← Metric.rpc_service_whole name)]
  | .register_profile plan => return [.metric (← Registry.register_profile plan)]
  | .counter_new kind name => return [.counter (← CounterMetric.new kind name)]
  | .counter_new_resource kind labels => return [.counter (← CounterMetric.new_resource kind labels)]
  | .gauge_new kind name => return [.gauge (← GaugeMetric.new kind name)]
  | .gauge_new_resource kind labels => return [.gauge (← GaugeMetric.new_resource kind labels)]
  -- the two handles of a connection metric are returned together or not at all
  | .conn_new kind name => return (← ConnMetric.new kind name).handles
  | .conn_new_resource kind labels => return (← ConnMetric.new_resource kind labels).handles
  -- no handle: a state is named again at every update
  | .record_rpc_state name key value => do
    BrzMetrics.record_rpc_state name key value
    return []

/-- The message of the panic a call ends in, if it does. -/
def rejection : PublicCall → Option String
  | .metric_new kind _ => kind.rejection.or
    (if kind.is_conn then some "connection values use CounterMetric/GaugeMetric/ConnMetric" else none)
  | .metric_new_resource kind _ => kind.rejection.or
    (if kind.is_conn then some "connection values use ConnMetric" else none)
  | .api_status _ status_code => MetricType.rejection (.Api status_code)
  | .counter_new kind _ | .counter_new_resource kind _
  | .gauge_new kind _ | .gauge_new_resource kind _ => kind.rejection
  | .conn_new kind _ | .conn_new_resource kind _ =>
    if kind.is_conn then none else some not_a_connection
  | _ => none

/-- The critical sections a call goes through if it is not rejected. -/
def sections : PublicCall → List Access
  | .metric_new kind name => [.registration (.register name kind)]
  | .metric_new_resource kind labels => [.registration (.register_resource kind labels)]
  | .log name => [.registration (.register name .Log)]
  | .redis name => [.registration (.register name (.Redis .Req))]
  | .mysql name => [.registration (.register name (.Mysql .Req))]
  | .mc name => [.registration (.register name (.Memcache .Req))]
  | .mc_detail name => [.registration (.register name .McDetail)]
  | .http name => [.registration (.register name (.Http .Req))]
  | .http_all name => [.registration (.register name .HttpAll)]
  | .api name => [.registration (.register name .ApiAll)]
  | .api_status name status_code => [.registration (.register name (.Api status_code))]
  | .api_3xx name => [.registration (.register name .Api3xx)]
  | .api_4xx name => [.registration (.register name .Api4xx)]
  | .api_5xx name => [.registration (.register name .Api5xx)]
  | .api_timeout name => [.registration (.register name .ApiTimeout)]
  | .service name => [.registration (.register name (.Service .Req))]
  | .rpc_service_whole name => [.registration (.register name .RpcServiceWhole)]
  | .register_profile plan => [.registration (.register_profile plan)]
  | .counter_new kind name => [.registration (.scalar_register kind .Counter name)]
  | .counter_new_resource kind labels =>
    [.registration (.scalar_register_resource kind .Counter labels)]
  | .gauge_new kind name => [.registration (.scalar_register kind .Gauge name)]
  | .gauge_new_resource kind labels =>
    [.registration (.scalar_register_resource kind .Gauge labels)]
  | .conn_new kind name =>
    -- the gauge first, then the counter, each under its own lock
    [.registration (.scalar_register kind .Gauge name),
      .registration (.scalar_register kind .Counter name)]
  | .conn_new_resource kind labels =>
    [.registration (.scalar_register_resource kind .Gauge labels),
      .registration (.scalar_register_resource kind .Counter labels)]
  | .record_rpc_state name key value => [.record_state name key value]

/-- The critical sections a call goes through. -/
def accesses (call : PublicCall) : List Access :=
  if call.rejection = none then call.sections else []

/-- Nothing runs after a panic. -/
@[simp] theorem throw_bind {α β : Type} (message : String) (f : α → EStateM String Registry β) :
    ((throw message : EStateM String Registry α) >>= f) = throw message := rfl

@[simp] theorem throw_map {α β : Type} (message : String) (f : α → β) :
    f <$> (throw message : EStateM String Registry α) = throw message := rfl

/-- A rejected registration panics before it enters a shard. -/
theorem issue_rejected {op : Registration} {message : String}
    (h : op.rejection = some message) : op.issue = throw message := by
  have hscalar : ∀ {kind : MetricType}, kind.rejection = some message → ∀ mode name resource,
      Registry.on_scalars (ScalarRegistry.enroll kind mode name resource) = throw message := by
    intro kind hkind mode name resource
    funext r
    rw [Registry.on_scalars,
      ScalarRegistry.enroll_rejected (MetricType.rejection_eq_some.mp hkind) mode name resource]
    rfl
  cases op with
  | register _ _ | register_resource _ _ | register_profile _ => simp [Registration.rejection] at h
  | scalar_register kind mode name =>
    have hpanics := hscalar h mode name none
    simp only [ScalarRegistry.enroll] at hpanics
    cases mode <;> simp [Registration.issue, CounterMetric.new, GaugeMetric.new, hpanics]
  | scalar_register_resource kind mode labels =>
    have hpanics := hscalar h mode labels.name (some labels)
    simp only [ScalarRegistry.enroll] at hpanics
    cases mode <;>
      simp [Registration.issue, CounterMetric.new_resource, GaugeMetric.new_resource, hpanics]

/-- A constructor that checks no more than the registration it makes. -/
theorem run_eq_issue (op : Registration) :
    (do return [← op.issue] : EStateM String Registry (List Handle))
      = match op.rejection with
        | some message => throw message
        | none => Access.run_all [.registration op] := by
  cases h : op.rejection with
  | none => simp [Access.run_all, Access.run]
  | some message => simp [issue_rejected h]

/-- A call panics before it has touched the registry, or goes through its critical sections. -/
theorem run_eq (call : PublicCall) :
    call.run = match call.rejection with
      | some message => throw message
      | none => Access.run_all call.sections := by
  cases call with
  | metric_new kind name =>
    simp only [run, rejection, sections, Metric.new, ScalarRegistry.validate,
      MetricType.rejection, ensure]
    cases kind.validate <;> cases kind.is_conn <;>
      simp [Access.run_all, Access.run, Registration.issue]
  | metric_new_resource kind labels =>
    simp only [run, rejection, sections, Metric.new_resource, ScalarRegistry.validate,
      MetricType.rejection, ensure]
    cases kind.validate <;> cases kind.is_conn <;>
      simp [Access.run_all, Access.run, Registration.issue]
  | api_status name status_code =>
    simp only [run, rejection, sections, Metric.api_status, MetricType.rejection,
      MetricType.validate, ensure]
    cases MetricType.valid_code status_code <;>
      simp [Access.run_all, Access.run, Registration.issue, Metric.register_single,
        invalid_status_code]
  | conn_new kind name =>
    simp only [run, rejection, sections, Access.run_all, Access.run, Registration.issue,
      ConnMetric.new, ensure]
    cases kind.is_conn <;> simp [ConnMetric.handles]
  | conn_new_resource kind labels =>
    simp only [run, rejection, sections, Access.run_all, Access.run, Registration.issue,
      ConnMetric.new_resource, ensure]
    cases kind.is_conn <;> simp [ConnMetric.handles]
  | counter_new kind name =>
    refine Eq.trans ?_ (run_eq_issue (.scalar_register kind .Counter name))
    simp [run, Registration.issue]
  | counter_new_resource kind labels =>
    refine Eq.trans ?_ (run_eq_issue (.scalar_register_resource kind .Counter labels))
    simp [run, Registration.issue]
  | gauge_new kind name =>
    refine Eq.trans ?_ (run_eq_issue (.scalar_register kind .Gauge name))
    simp [run, Registration.issue]
  | gauge_new_resource kind labels =>
    refine Eq.trans ?_ (run_eq_issue (.scalar_register_resource kind .Gauge labels))
    simp [run, Registration.issue]
  | register_profile plan =>
    simp [run, rejection, sections, Access.run_all, Access.run, Registration.issue]
  | record_rpc_state name key value =>
    simp [run, rejection, sections, Access.run_all, Access.run]
  | log name | redis name | mysql name | mc name | mc_detail name | http name | http_all name
  | api name | api_3xx name | api_4xx name | api_5xx name | api_timeout name | service name
  | rpc_service_whole name =>
    -- none of these checks anything
    refine Eq.trans ?_ (run_eq_issue (.register name _))
    simp only [run, Registration.issue, bind_assoc, pure_bind]
    rfl

end PublicCall

end BrzMetrics
