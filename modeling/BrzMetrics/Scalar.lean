/-
Counters and gauges, `src/src/scalar.rs`: the scalar shard, the scalar registry
and the two handle types, with the key a scalar registration is hashed and
deduplicated by.

`register` is written out as in the source. It does by itself what the timing
shard spreads over `allocate` and three inserts, and it enters the key before
it counts the registration.
-/
import BrzMetrics.Chunks
import BrzMetrics.State

set_option autoImplicit false

namespace BrzMetrics

/-- `ahash::RandomState`: a hash function that the seed decides. -/
structure RandomState (K : Type) where
  hash_one : K → UInt64

/-- `(hash as usize) & (SHARD_COUNT - 1)`. -/
def select_shard (hash : UInt64) : Fin SHARD_COUNT :=
  ⟨hash.toNat &&& (SHARD_COUNT - 1), Nat.lt_of_le_of_lt Nat.and_le_right (by decide)⟩

/-- `Mutex::lock().expect(message)` around a critical section. A panic inside poisons the lock
and leaves the state as the section left it. -/
def with_lock {σ α : Type} (poisoned : σ → Bool) (poison : σ → σ) (message : String)
    (body : EStateM String σ α) : EStateM String σ α := fun s =>
  if poisoned s then .error message s
  else match body s with
    | .ok a s' => .ok a s'
    | .error e s' => .error e (poison s')

inductive ScalarKind where
  | Counter
  | Gauge
deriving DecidableEq, Repr

structure ScalarMeta where
  name : String
  resource : Option ResourceLabels
  kind : MetricType
  mode : ScalarKind
  item : ScalarPtr
deriving DecidableEq, Repr

/-- What `ScalarRegistry::register` and `register_resource` hash. -/
inductive ScalarKey where
  | named (kind : MetricType) (mode : ScalarKind) (name : String)
  | resource (kind : MetricType) (mode : ScalarKind) (labels : ResourceLabels)
deriving DecidableEq, Repr

/-- The key a metadata entry was registered under. -/
def ScalarMeta.key (self : ScalarMeta) : ScalarKey :=
  match self.resource with
  | some labels => .resource self.kind self.mode labels
  | none => .named self.kind self.mode self.name

/-- `scalar::Shard`, with the `State` behind its mutex. -/
structure ScalarShard where
  id : Fin SHARD_COUNT
  by_type : FastHashMap (MetricType × ScalarKind) (FastHashMap String ScalarPtr)
  by_resource : FastHashMap (MetricType × ScalarKind × ResourceLabels) ScalarPtr
  store : Chunks ScalarMeta
  poisoned : Bool

namespace ScalarShard

/-- `Shard::new`. -/
def new (id : Fin SHARD_COUNT) : ScalarShard :=
  { id := id, by_type := ∅, by_resource := ∅, store := Chunks.new, poisoned := false }

/-- Apply an access to the chunked storage. -/
def on_store (f : Chunks ScalarMeta → Chunks ScalarMeta) (self : ScalarShard) : ScalarShard :=
  { self with store := f self.store }

/-- `state.chunks[chunk].publish(offset, entry)`. -/
def publish (arc offset : ℕ) (entry : ScalarMeta) : EStateM String ScalarShard Unit := do
  match (← get).store.publish arc offset entry with
  | .ok store => modify (on_store (fun _ => store))
  | .error e => throw e

/-- `Shard::register`. -/
def register (kind : MetricType) (mode : ScalarKind) (name : String)
    (resource : Option ResourceLabels) : EStateM String ScalarShard ScalarPtr :=
  with_lock poisoned (fun s => { s with poisoned := true }) "scalar shard mutex poisoned" do
    let resource_key := resource.map (fun labels => (kind, mode, labels))
    let state ← get
    let existing := match resource_key with
      | some key => state.by_resource.lookup key
      | none => (state.by_type.lookup (kind, mode)).bind (fun names => names.lookup name)
    match existing with
    | some item => return item
    | none =>
      let chunk := state.store.len / CHUNK_SIZE
      let offset := state.store.len % CHUNK_SIZE
      -- unlike in the timing shard the key is inserted before `len` is raised, and the index is
      -- stored last
      let added := state.store.chunks.length ≤ chunk
      if added then
        modify (on_store Chunks.push_chunk)
      let block ← index_vec (← get).store.slots chunk
      let item : ScalarPtr := { shard := state.id, chunk := block, offset := offset }
      let arc ← index_vec (← get).store.chunks chunk
      publish arc offset
        { name := name, resource := resource, kind := kind, mode := mode, item := item }
      match resource_key with
      | some key => modify (fun s => { s with by_resource := s.by_resource.insert key item })
      | none => modify (fun s => { s with
          by_type := s.by_type.insert (kind, mode)
            (((s.by_type.lookup (kind, mode)).getD ∅).insert name item) })
      modify (on_store Chunks.count)
      if added then
        modify (on_store Chunks.store_index)
      return item

end ScalarShard

/-- `ScalarRegistry`. -/
structure ScalarRegistry where
  shards : Fin SHARD_COUNT → ScalarShard
  hasher : RandomState ScalarKey

namespace ScalarRegistry

/-- `ScalarRegistry::new`, with the hash function its seed picks. -/
def new (hasher : RandomState ScalarKey) : ScalarRegistry :=
  { shards := ScalarShard.new, hasher := hasher }

/-- `kind.validate()`: a panic that leaves the state as it is. -/
def validate {σ : Type} (kind : MetricType) : EStateM String σ Unit :=
  match kind.validate with
  | .ok () => pure ()
  | .error e => throw e

/-- Run an operation of one shard. -/
def on_shard {α : Type} (shard : Fin SHARD_COUNT) (op : EStateM String ScalarShard α) :
    EStateM String ScalarRegistry α := fun self =>
  match op (self.shards shard) with
  | .ok a s => .ok a { self with shards := Function.update self.shards shard s }
  | .error e s => .error e { self with shards := Function.update self.shards shard s }

/-- `ScalarRegistry::register`. -/
def register (kind : MetricType) (mode : ScalarKind) (name : String) :
    EStateM String ScalarRegistry ScalarPtr := do
  validate kind
  let shard := select_shard ((← get).hasher.hash_one (.named kind mode name))
  on_shard shard (ScalarShard.register kind mode name none)

/-- `ScalarRegistry::register_resource`. -/
def register_resource (kind : MetricType) (mode : ScalarKind) (labels : ResourceLabels) :
    EStateM String ScalarRegistry ScalarPtr := do
  validate kind
  let shard := select_shard ((← get).hasher.hash_one (.resource kind mode labels))
  on_shard shard (ScalarShard.register kind mode labels.name (some labels))

/-- `ScalarRegistry::for_each`: the entries the closure is called with, in order. -/
def for_each (self : ScalarRegistry) : Option (List ScalarMeta) := do
  let visited ← (List.finRange SHARD_COUNT).mapM (fun shard => (self.shards shard).store.for_each)
  return visited.flatten

/-- `ScalarRegistry::len`. -/
def len (self : ScalarRegistry) : ℕ :=
  ((List.finRange SHARD_COUNT).map (fun shard => (self.shards shard).store.published_len)).sum

end ScalarRegistry

/-! ## Handles -/

/-- A cumulative count. -/
structure CounterMetric where
  item : ScalarPtr
deriving DecidableEq, Repr

/-- `CounterMetric::add`. -/
def CounterMetric.add (self : CounterMetric) (value : UInt64) : List FetchAdd :=
  [⟨.scalar self.item, value⟩]

/-- `CounterMetric::inc`. -/
def CounterMetric.inc (self : CounterMetric) : List FetchAdd := self.add 1

/-- `ScalarPtr::read`. -/
def ScalarPtr.read (self : ScalarPtr) (memory : Memory) : UInt64 := memory (.scalar self)

/-- `CounterMetric::get`. -/
def CounterMetric.get (self : CounterMetric) (memory : Memory) : UInt64 := self.item.read memory

/-- A current signed value. -/
structure GaugeMetric where
  item : ScalarPtr
deriving DecidableEq, Repr

/-- One atomic write, `atomic.store(value, Ordering::Relaxed)`. -/
structure AtomicStore where
  target : Atomic
  value : UInt64
deriving DecidableEq, Repr

/-- `store` replaces the word. -/
def AtomicStore.apply (memory : Memory) (op : AtomicStore) : Memory :=
  Function.update memory op.target op.value

namespace GaugeMetric

/-- `GaugeMetric::add`: `fetch_add(value as u64)`. -/
def add (self : GaugeMetric) (value : Int64) : List FetchAdd :=
  [⟨.scalar self.item, value.toUInt64⟩]

/-- `GaugeMetric::inc`. -/
def inc (self : GaugeMetric) : List FetchAdd := self.add 1

/-- `GaugeMetric::dec`. -/
def dec (self : GaugeMetric) : List FetchAdd := self.add (-1)

/-- `GaugeMetric::set`: `store(value as u64)`. -/
def set (self : GaugeMetric) (value : Int64) : AtomicStore := ⟨.scalar self.item, value.toUInt64⟩

/-- `GaugeMetric::get`. -/
def get (self : GaugeMetric) (memory : Memory) : Int64 := (self.item.read memory).toInt64

end GaugeMetric

end BrzMetrics
