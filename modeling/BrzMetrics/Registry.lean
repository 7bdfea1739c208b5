/-
The timing registry, `src/src/registry.rs`: the registration shard with its
three hash maps, and the registry that routes a registration to one of its
shards, holds the scalar registry and the RPC states, and enumerates the
metadata of every slot.

Each registration runs under its shard's mutex, so the model of a call is a
function of the shard. A call may panic, and then leaves the shard as it was
when it did; the operations are therefore `EStateM String`, whose errors carry
the state.
-/
import BrzMetrics.Scalar

set_option autoImplicit false

namespace BrzMetrics

/-- Metadata of one timing slot. -/
structure MetricMeta where
  item : ItemPtr
  profile : ProfileMeta
deriving DecidableEq, Repr

/-- What `Registry::register`, `register_resource` and `register_profile` hash. -/
inductive TimingKey where
  | named (name : String) (kind : MetricType)
  | resource (kind : MetricType) (labels : ResourceLabels)
  | profile (identity : String) (policy : MetricPolicy)
deriving DecidableEq, Repr

/-- The key a profile is registered under. -/
def ProfileMeta.key : ProfileMeta → TimingKey
  | .Single name kind => .named name kind
  | .Resource labels kind => .resource kind labels
  | .Fanout plan => .profile plan.identity plan.policy

/-- `registry::Shard`, with the `ShardState` behind its mutex. -/
structure Shard where
  id : Fin SHARD_COUNT
  by_type : FastHashMap MetricType (FastHashMap String ItemPtr)
  by_resource : FastHashMap (MetricType × ResourceLabels) ItemPtr
  by_profile : FastHashMap MetricPolicy (FastHashMap String ItemPtr)
  store : Chunks MetricMeta
  poisoned : Bool

namespace Shard

/-- `Shard::new`. -/
def new (id : Fin SHARD_COUNT) : Shard :=
  { id := id, by_type := ∅, by_resource := ∅, by_profile := ∅, store := Chunks.new,
    poisoned := false }

/-- Apply an access to the chunked storage. -/
def on_store (f : Chunks MetricMeta → Chunks MetricMeta) (self : Shard) : Shard :=
  { self with store := f self.store }

/-- `ShardState::existing`. -/
def existing (self : Shard) (name : String) (kind : MetricType) : Option ItemPtr :=
  (self.by_type.lookup kind).bind (fun names => names.lookup name)

/-- `ShardState::existing_profile`. -/
def existing_profile (self : Shard) (identity : String) (policy : MetricPolicy) :
    Option ItemPtr :=
  (self.by_profile.lookup policy).bind (fun identities => identities.lookup identity)

/-- `self.meta_chunks[chunk_index].publish(offset, entry)`. -/
def publish (arc offset : ℕ) (entry : MetricMeta) : EStateM String Shard Unit := do
  match (← get).store.publish arc offset entry with
  | .ok store => modify (on_store (fun _ => store))
  | .error e => throw e

/-- `ShardState::allocate`. -/
def allocate (profile : ProfileMeta) (policy : MetricPolicy) :
    EStateM String Shard (Metric × ItemPtr) := do
  let self ← get
  let index := self.store.len
  let chunk_index := index / CHUNK_SIZE
  let offset := index % CHUNK_SIZE
  let is_new_chunk := self.store.chunks.length ≤ chunk_index
  if is_new_chunk then
    modify (on_store Chunks.push_chunk)
  let block ← index_vec (← get).store.slots chunk_index
  let item : ItemPtr := { shard := self.id, chunk := block, offset := offset }
  let entry : MetricMeta := { item := item, profile := profile }
  let arc ← index_vec (← get).store.chunks chunk_index
  publish arc offset entry
  modify (on_store Chunks.count)
  if is_new_chunk then
    modify (on_store Chunks.store_index)
  return (Metric.from_item item policy, item)

/-- `ShardState::insert`. -/
def insert (name : String) (kind : MetricType) : EStateM String Shard Metric := do
  let (metric, item) ← allocate (.Single name kind) kind.policy
  modify (fun s => { s with
    by_type := s.by_type.insert kind (((s.by_type.lookup kind).getD ∅).insert name item) })
  return metric

/-- `ShardState::insert_profile`. -/
def insert_profile (plan : ProfilePlan) : EStateM String Shard Metric := do
  let (metric, item) ← allocate (.Fanout plan) plan.policy
  modify (fun s => { s with
    by_profile := s.by_profile.insert plan.policy
      (((s.by_profile.lookup plan.policy).getD ∅).insert plan.identity item) })
  return metric

/-- `self.state.lock().expect("metrics shard mutex poisoned")`. -/
def lock {α : Type} (body : EStateM String Shard α) : EStateM String Shard α :=
  with_lock poisoned (fun s => { s with poisoned := true }) "metrics shard mutex poisoned" body

/-- `Shard::register`. -/
def register (name : String) (kind : MetricType) : EStateM String Shard Metric := lock do
  match (← get).existing name kind with
  | some item => return Metric.from_item item kind.policy
  | none => insert name kind

/-- `Shard::register_profile`. -/
def register_profile (plan : ProfilePlan) : EStateM String Shard Metric := lock do
  match (← get).existing_profile plan.identity plan.policy with
  | some item => return Metric.from_item item plan.policy
  | none => insert_profile plan

/-- The critical section of `Registry::register_resource`. -/
def register_resource (kind : MetricType) (labels : ResourceLabels) :
    EStateM String Shard Metric := lock do
  match (← get).by_resource.lookup (kind, labels) with
  | some item => return Metric.from_item item kind.policy
  | none =>
    let (metric, item) ← allocate (.Resource labels kind) kind.policy
    modify (fun s => { s with by_resource := s.by_resource.insert (kind, labels) item })
    return metric

end Shard

/-- `Registry`. -/
structure Registry where
  scalars : ScalarRegistry
  shards : Fin SHARD_COUNT → Shard
  states : StateRegistry
  shard_hasher : RandomState TimingKey

namespace Registry

/-- `Registry::new`, with the hash functions its seeds pick. -/
def new (shard_hasher : RandomState TimingKey) (scalar_hasher : RandomState ScalarKey) :
    Registry where
  scalars := ScalarRegistry.new scalar_hasher
  shards := Shard.new
  states := StateRegistry.default
  shard_hasher := shard_hasher

/-- Run an operation of one shard. -/
def on_shard {α : Type} (shard : Fin SHARD_COUNT) (op : EStateM String Shard α) :
    EStateM String Registry α := fun self =>
  match op (self.shards shard) with
  | .ok a s => .ok a { self with shards := Function.update self.shards shard s }
  | .error e s => .error e { self with shards := Function.update self.shards shard s }

/-- Run an operation of the scalar registry. -/
def on_scalars {α : Type} (op : EStateM String ScalarRegistry α) : EStateM String Registry α :=
  fun self =>
    match op self.scalars with
    | .ok a s => .ok a { self with scalars := s }
    | .error e s => .error e { self with scalars := s }

/-- `Registry::register`. -/
def register (name : String) (kind : MetricType) : EStateM String Registry Metric := do
  let shard := select_shard ((← get).shard_hasher.hash_one (.named name kind))
  on_shard shard (Shard.register name kind)

/-- `Registry::register_profile`. -/
def register_profile (plan : ProfilePlan) : EStateM String Registry Metric := do
  let shard := select_shard ((← get).shard_hasher.hash_one (.profile plan.identity plan.policy))
  on_shard shard (Shard.register_profile plan)

/-- `Registry::register_resource`. -/
def register_resource (kind : MetricType) (labels : ResourceLabels) :
    EStateM String Registry Metric := do
  let shard := select_shard ((← get).shard_hasher.hash_one (.resource kind labels))
  on_shard shard (Shard.register_resource kind labels)

/-- `Registry::record_state`. -/
def record_state (self : Registry) (state_type : StateType) (name key value : String) : Registry :=
  { self with states := self.states.record state_type name key value }

/-- `Registry::state_snapshot`. -/
def state_snapshot (self : Registry) (order : IterOrder) : List StateSnapshot :=
  self.states.snapshot order

/-- `Registry::for_each_meta`: the entries the closure is called with, in order. -/
def for_each_meta (self : Registry) : Option (List MetricMeta) := do
  let visited ← (List.finRange SHARD_COUNT).mapM (fun shard => (self.shards shard).store.for_each)
  return visited.flatten

/-- `Registry::len`. -/
def len (self : Registry) : ℕ :=
  self.scalars.len
    + ((List.finRange SHARD_COUNT).map (fun shard => (self.shards shard).store.published_len)).sum

end Registry

end BrzMetrics
