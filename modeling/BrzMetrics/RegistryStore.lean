/-
The registry is a keyed store.

A registration call names a key in one of four key spaces and carries the
metadata to remember for it. `Registry.calls` runs a sequence of calls; a call
that panics (a scalar kind with an invalid status code) unwinds, and the next
call goes on. Every registration runs under the mutex of its shard, so the
calls of any number of threads are such a sequence.

`Represents` relates the registry to the abstract store of `KeyedStore`: what
the two traversals enumerate is what the store holds. Every accepted call is
then a step of the store (`Represents.run`), whatever the hash functions are,
and a whole sequence is a run of it (`Represents.calls`).
-/
import BrzMetrics.RegistryLog

set_option autoImplicit false

namespace BrzMetrics

open KeyedStore

/-! ## Keys, metadata and slots of either kind -/

/-- A slot of a timing shard or of a scalar shard. -/
inductive SlotPtr where
  | timing (item : ItemPtr)
  | scalar (item : ScalarPtr)
deriving DecidableEq, Repr

/-- A key of any of the four key spaces. -/
inductive StoreKey where
  | timing (key : TimingKey)
  | scalar (key : ScalarKey)
deriving DecidableEq, Repr

/-- What is remembered about a slot. -/
inductive Metadata where
  | timing (profile : ProfileMeta)
  | scalar (name : String) (resource : Option ResourceLabels) (kind : MetricType)
      (mode : ScalarKind)
deriving DecidableEq, Repr

/-- An entry of the store. -/
abbrev Registered := Entry StoreKey Metadata SlotPtr

/-- A timing entry as an entry of the store. -/
def MetricMeta.registered (self : MetricMeta) : Registered :=
  { key := .timing self.key, value := .timing self.profile, slot := .timing self.item }

/-- A scalar entry as an entry of the store. -/
def ScalarMeta.registered (self : ScalarMeta) : Registered where
  key := .scalar self.key
  value := .scalar self.name self.resource self.kind self.mode
  slot := .scalar self.item

/-- One call of a registration function. -/
inductive Registration where
  | register (name : String) (kind : MetricType)
  | register_resource (kind : MetricType) (labels : ResourceLabels)
  | register_profile (plan : ProfilePlan)
  | scalar_register (kind : MetricType) (mode : ScalarKind) (name : String)
  | scalar_register_resource (kind : MetricType) (mode : ScalarKind) (labels : ResourceLabels)
deriving DecidableEq, Repr

/-- The message of the assertion that `validate` fails, if it does. -/
def MetricType.rejection (kind : MetricType) : Option String :=
  match kind.validate with
  | .ok () => none
  | .error message => some message

theorem MetricType.rejection_eq_none {kind : MetricType} :
    kind.rejection = none ↔ kind.validate = .ok () := by
  unfold rejection
  split <;> simp_all

theorem MetricType.rejection_eq_some {kind : MetricType} {message : String} :
    kind.rejection = some message ↔ kind.validate = .error message := by
  unfold rejection
  split <;> simp_all

namespace Registration

/-- The key a call registers. -/
def key : Registration → StoreKey
  | .register name kind => .timing (.named name kind)
  | .register_resource kind labels => .timing (.resource kind labels)
  | .register_profile plan => .timing (.profile plan.identity plan.policy)
  | .scalar_register kind mode name => .scalar (.named kind mode name)
  | .scalar_register_resource kind mode labels => .scalar (.resource kind mode labels)

/-- The metadata a call brings. -/
def metadata : Registration → Metadata
  | .register name kind => .timing (.Single name kind)
  | .register_resource kind labels => .timing (.Resource labels kind)
  | .register_profile plan => .timing (.Fanout plan)
  | .scalar_register kind mode name => .scalar name none kind mode
  | .scalar_register_resource kind mode labels => .scalar labels.name (some labels) kind mode

/-- The message of the panic a call ends in, if it does. -/
def rejection : Registration → Option String
  | .scalar_register kind _ _ | .scalar_register_resource kind _ _ => kind.rejection
  | _ => none

/-- Run a call. The handle it returns is a pointer to a slot. -/
def run : Registration → EStateM String Registry SlotPtr
  | .register name kind => return .timing (← Registry.register name kind).item
  | .register_resource kind labels => return .timing (← Registry.register_resource kind labels).item
  | .register_profile plan => return .timing (← Registry.register_profile plan).item
  | .scalar_register kind mode name =>
    return .scalar (← Registry.on_scalars (ScalarRegistry.register kind mode name))
  | .scalar_register_resource kind mode labels =>
    return .scalar (← Registry.on_scalars (ScalarRegistry.register_resource kind mode labels))

/-- A call together with the slot it returned. -/
def returned (self : Registration) (slot : SlotPtr) : Registered :=
  { key := self.key, value := self.metadata, slot := slot }

end Registration

/-- A call and how it ended. -/
abbrev Outcome := Registration × Except String SlotPtr

/-- Run one more call, whether or not the ones before it panicked. -/
def Registry.call (self : List Outcome × Registry) (op : Registration) : List Outcome × Registry :=
  match op.run self.2 with
  | .ok slot after => (self.1 ++ [(op, .ok slot)], after)
  | .error message after => (self.1 ++ [(op, .error message)], after)

/-- Run a sequence of calls. -/
def Registry.calls (self : Registry) (ops : List Registration) : List Outcome × Registry :=
  ops.foldl Registry.call ([], self)

/-- The calls that returned, with the slots they returned. -/
def accepted (outcomes : List Outcome) : List Registered :=
  outcomes.filterMap (fun c => c.2.toOption.map c.1.returned)

/-! ## The refinement -/

/-- The traversals enumerate what the store holds. -/
structure Represents (r : Registry) (logs : Fin SHARD_COUNT → List MetricMeta)
    (scalars : Fin SHARD_COUNT → List ScalarMeta)
    (store : Store StoreKey Metadata SlotPtr) : Prop where
  inv : r.Inv logs scalars
  listed : ((flat logs).map MetricMeta.registered
    ++ (flat scalars).map ScalarMeta.registered).Perm store.entries

theorem represents_new (shard_hasher : RandomState TimingKey)
    (scalar_hasher : RandomState ScalarKey) :
    Represents (Registry.new shard_hasher scalar_hasher) (fun _ => []) (fun _ => []) Store.empty where
  inv := Registry.inv_new shard_hasher scalar_hasher
  listed := by simp [flat, Store.empty]

/-- No slot is listed twice. -/
theorem listed_slots_nodup {r : Registry} {logs : Fin SHARD_COUNT → List MetricMeta}
    {scalars : Fin SHARD_COUNT → List ScalarMeta} (h : r.Inv logs scalars) :
    (((flat logs).map MetricMeta.registered ++ (flat scalars).map ScalarMeta.registered).map
      Entry.slot).Nodup := by
  have htiming : ((flat logs).map MetricMeta.registered).map Entry.slot
      = ((flat logs).map MetricMeta.item).map SlotPtr.timing := by
    simp only [List.map_map]
    rfl
  have hscalar : ((flat scalars).map ScalarMeta.registered).map Entry.slot
      = ((flat scalars).map ScalarMeta.item).map SlotPtr.scalar := by
    simp only [List.map_map]
    rfl
  rw [List.map_append, htiming, hscalar]
  refine (h.items_nodup.map fun _ _ heq => SlotPtr.timing.inj heq).append
    (h.scalars.items_nodup.map fun _ _ heq => SlotPtr.scalar.inj heq) ?_
  intro slot ht hs
  obtain ⟨item, -, rfl⟩ := List.mem_map.mp ht
  obtain ⟨item', -, heq⟩ := List.mem_map.mp hs
  exact SlotPtr.noConfusion heq

/-- Enrolling a timing entry enrolls it among all entries. -/
theorem timing_listed {log log' : List MetricMeta} {entry : MetricMeta} (scalars : List ScalarMeta)
    (h : log'.Perm (enroll MetricMeta.key log entry)) :
    (log'.map MetricMeta.registered ++ scalars.map ScalarMeta.registered).Perm
      (enroll Entry.key (log.map MetricMeta.registered ++ scalars.map ScalarMeta.registered)
        entry.registered) := by
  have hkey : ∀ a b : MetricMeta, a.registered.key = b.registered.key ↔ a.key = b.key :=
    fun a b => by simp [MetricMeta.registered]
  have hother : entry.registered.key ∉ (scalars.map ScalarMeta.registered).map Entry.key := by
    simp [MetricMeta.registered, ScalarMeta.registered]
  refine List.Perm.trans (List.Perm.append_right _ ?_) (enroll_append Entry.key hother)
  rw [← enroll_map _ _ hkey]
  exact h.map _

/-- Enrolling a scalar entry enrolls it among all entries. -/
theorem scalar_listed {log log' : List ScalarMeta} {entry : ScalarMeta} (timing : List MetricMeta)
    (h : log'.Perm (enroll ScalarMeta.key log entry)) :
    (timing.map MetricMeta.registered ++ log'.map ScalarMeta.registered).Perm
      (enroll Entry.key (timing.map MetricMeta.registered ++ log.map ScalarMeta.registered)
        entry.registered) := by
  have hkey : ∀ a b : ScalarMeta, a.registered.key = b.registered.key ↔ a.key = b.key :=
    fun a b => by simp [ScalarMeta.registered]
  have hother : entry.registered.key ∉ (timing.map MetricMeta.registered).map Entry.key := by
    simp [MetricMeta.registered, ScalarMeta.registered]
  refine List.perm_append_comm.trans (List.Perm.trans (List.Perm.append_right _ ?_)
    ((enroll_append Entry.key hother).trans (enroll_perm _ List.perm_append_comm _)))
  rw [← enroll_map _ _ hkey]
  exact h.map _

/-- Returning a function of a result. -/
theorem return_ok {α β : Type} {x : EStateM String Registry α} {r r' : Registry} {a : α}
    (h : x r = .ok a r') (f : α → β) :
    (do return f (← x) : EStateM String Registry β) r = .ok (f a) r' := by
  simp only [bind, EStateM.bind, h]
  rfl

section Run

variable {r : Registry} {logs : Fin SHARD_COUNT → List MetricMeta}
  {scalars : Fin SHARD_COUNT → List ScalarMeta} {store : Store StoreKey Metadata SlotPtr}

/-- The states are no part of the store. -/
theorem Represents.with_states (h : Represents r logs scalars store) (states : StateRegistry) :
    Represents { r with states := states } logs scalars store :=
  ⟨h.inv.with_states states, h.listed⟩

/-- A timing registration is a step of the store. -/
theorem Represents.enroll_timing (h : Represents r logs scalars store) (profile : ProfileMeta) :
    ∃ item r' logs' store', Registry.enroll profile r
        = .ok (Metric.from_item item profile.policy) r'
      ∧ Represents r' logs' scalars store'
      ∧ Registers store (MetricMeta.mk item profile).registered store'
      ∧ r'.states = r.states := by
  obtain ⟨item, r', logs', hok, hinv, hflat, ⟨m, hm, hkey, hitem⟩, hstates, -⟩ :=
    Registry.enroll_spec h.inv profile
  obtain ⟨store', hstep, hlisted⟩ := exists_registers h.listed (timing_listed (flat scalars) hflat)
    ⟨m.registered, List.mem_append_left _ (List.mem_map_of_mem hm),
      congrArg StoreKey.timing hkey, congrArg SlotPtr.timing hitem⟩
    (listed_slots_nodup hinv)
  exact ⟨item, r', logs', store', hok, ⟨hinv, hlisted⟩, hstep, hstates⟩

/-- An accepted scalar registration is a step of the store. -/
theorem Represents.enroll_scalar (h : Represents r logs scalars store) {kind : MetricType}
    (hkind : kind.validate = .ok ()) (mode : ScalarKind) (name : String)
    (resource : Option ResourceLabels) :
    ∃ item r' scalars' store',
      Registry.on_scalars (ScalarRegistry.enroll kind mode name resource) r = .ok item r'
      ∧ Represents r' logs scalars' store'
      ∧ Registers store
          (ScalarMeta.mk (entry_name name resource) resource kind mode item).registered store'
      ∧ r'.states = r.states := by
  obtain ⟨item, r', scalars', hok, hinv, -, -, hflat, m, hm, hkey, hitem⟩ :=
    ScalarRegistry.enroll_spec h.inv.scalars hkind mode name resource
  have hcall : (ScalarMeta.mk (entry_name name resource) resource kind mode item).key
      = ScalarShard.call_key kind mode name resource := by cases resource <;> rfl
  have hinv' : Registry.Inv { r with scalars := r' } logs scalars' :=
    ⟨h.inv.ids, h.inv.shards, h.inv.routed, hinv⟩
  obtain ⟨store', hstep, hlisted⟩ := exists_registers h.listed (scalar_listed (flat logs) hflat)
    ⟨m.registered, List.mem_append_right _ (List.mem_map_of_mem hm),
      congrArg StoreKey.scalar (hkey.trans hcall.symm), congrArg SlotPtr.scalar hitem⟩
    (listed_slots_nodup hinv')
  exact ⟨item, { r with scalars := r' }, scalars', store', by rw [Registry.on_scalars, hok],
    ⟨hinv', hlisted⟩, hstep, rfl⟩

/-- A rejected call panics and changes nothing. -/
theorem Registration.run_rejected {op : Registration} {message : String}
    (hop : op.rejection = some message) (r : Registry) : op.run r = .error message r := by
  have hscalar : ∀ {kind : MetricType}, kind.validate = .error message → ∀ mode name resource,
      Registry.on_scalars (ScalarRegistry.enroll kind mode name resource) r
        = .error message r := by
    intro kind hkind mode name resource
    rw [Registry.on_scalars, ScalarRegistry.enroll_rejected hkind]
  cases op with
  | register _ _ | register_resource _ _ | register_profile _ => simp [rejection] at hop
  | scalar_register kind mode name =>
    have := hscalar (MetricType.rejection_eq_some.mp hop) mode name none
    simp only [ScalarRegistry.enroll] at this
    simp only [run, bind, EStateM.bind, this]
  | scalar_register_resource kind mode labels =>
    have := hscalar (MetricType.rejection_eq_some.mp hop) mode labels.name (some labels)
    simp only [ScalarRegistry.enroll] at this
    simp only [run, bind, EStateM.bind, this]

/-- A call that is not rejected returns a slot and is a step of the store. -/
theorem Represents.run (h : Represents r logs scalars store) {op : Registration}
    (hop : op.rejection = none) :
    ∃ slot r' logs' scalars' store', op.run r = .ok slot r'
      ∧ Represents r' logs' scalars' store' ∧ Registers store (op.returned slot) store'
      ∧ r'.states = r.states := by
  have htiming : ∀ profile : ProfileMeta, ∃ item r' logs' store',
      (do return SlotPtr.timing (← Registry.enroll profile).item : EStateM String Registry _) r
        = .ok (.timing item) r'
      ∧ Represents r' logs' scalars store'
      ∧ Registers store (MetricMeta.mk item profile).registered store'
      ∧ r'.states = r.states := by
    intro profile
    obtain ⟨item, r', logs', store', hok, hrest⟩ := h.enroll_timing profile
    exact ⟨item, r', logs', store', return_ok hok (fun metric => SlotPtr.timing metric.item),
      hrest⟩
  cases op with
  | register name kind =>
    obtain ⟨item, r', logs', store', hok, hrep, hstep, hstates⟩ := htiming (.Single name kind)
    exact ⟨.timing item, r', logs', scalars, store', hok, hrep, hstep, hstates⟩
  | register_resource kind labels =>
    obtain ⟨item, r', logs', store', hok, hrep, hstep, hstates⟩ := htiming (.Resource labels kind)
    exact ⟨.timing item, r', logs', scalars, store', hok, hrep, hstep, hstates⟩
  | register_profile plan =>
    obtain ⟨item, r', logs', store', hok, hrep, hstep, hstates⟩ := htiming (.Fanout plan)
    exact ⟨.timing item, r', logs', scalars, store', hok, hrep, hstep, hstates⟩
  | scalar_register kind mode name =>
    obtain ⟨item, r', scalars', store', hok, hrep, hstep, hstates⟩ :=
      h.enroll_scalar (MetricType.rejection_eq_none.mp hop) mode name none
    exact ⟨.scalar item, r', logs, scalars', store', return_ok hok SlotPtr.scalar, hrep, hstep,
      hstates⟩
  | scalar_register_resource kind mode labels =>
    obtain ⟨item, r', scalars', store', hok, hrep, hstep, hstates⟩ :=
      h.enroll_scalar (MetricType.rejection_eq_none.mp hop) mode labels.name (some labels)
    exact ⟨.scalar item, r', logs, scalars', store', return_ok hok SlotPtr.scalar, hrep, hstep,
      hstates⟩

end Run

/-! ## Sequences of calls -/

theorem Registry.calls_snoc (r : Registry) (ops : List Registration) (op : Registration) :
    r.calls (ops ++ [op]) = Registry.call (r.calls ops) op := by
  rw [Registry.calls, List.foldl_append]
  rfl

/-- Every call of a sequence has its outcome, and panics exactly when it is rejected. The
accepted calls are a run of the store. -/
theorem Represents.calls {r : Registry} {logs : Fin SHARD_COUNT → List MetricMeta}
    {scalars : Fin SHARD_COUNT → List ScalarMeta} {store : Store StoreKey Metadata SlotPtr}
    (h : Represents r logs scalars store) (ops : List Registration) :
    ∃ logs' scalars' store', Represents (r.calls ops).2 logs' scalars' store'
      ∧ Runs store (accepted (r.calls ops).1) store'
      ∧ (r.calls ops).1.map Prod.fst = ops
      ∧ (∀ c ∈ (r.calls ops).1, ∀ message,
          c.2 = .error message ↔ c.1.rejection = some message)
      ∧ (r.calls ops).2.states = r.states := by
  induction ops using List.reverseRecOn with
  | nil => exact ⟨logs, scalars, store, h, .nil store, rfl, by simp [Registry.calls], rfl⟩
  | append_singleton ops op ih =>
    obtain ⟨logs', scalars', store', hrep, hruns, hops, hout, hstates⟩ := ih
    rw [Registry.calls_snoc, Registry.call]
    cases hop : op.rejection with
    | some message =>
      -- a rejected call leaves the store and the accepted calls as they were
      rw [Registration.run_rejected hop]
      refine ⟨logs', scalars', store', hrep, ?_, by simp [hops], ?_, hstates⟩
      · simpa [accepted, List.filterMap_append, Except.toOption] using hruns
      · intro c hc message'
        rcases List.mem_append.mp hc with hc | hc
        · exact hout c hc message'
        · rw [List.mem_singleton.mp hc, hop, Except.error.injEq, Option.some.injEq]
    | none =>
      -- an accepted call is one more step of the run
      obtain ⟨slot, r', logs'', scalars'', store'', hok, hrep', hstep, hstates'⟩ := hrep.run hop
      rw [hok]
      refine ⟨logs'', scalars'', store'', hrep', ?_, by simp [hops], ?_, hstates'.trans hstates⟩
      · simpa [accepted, List.filterMap_append, Except.toOption] using hruns.snoc hstep
      · intro c hc message
        rcases List.mem_append.mp hc with hc | hc
        · exact hout c hc message
        · rw [List.mem_singleton.mp hc]
          simp [hop]

/-- The sharded, chunked registry is a keyed store, for every pair of hash functions and every
sequence of registrations: exactly the calls with an invalid status code panic; two calls return
the same slot exactly when they name the same key of the same key space; the two traversals
together enumerate one entry for each key, with the metadata of the key's first registration and
the slot that every call of the sequence got for it; and `len` is the number of keys. -/
theorem Registry.refines_keyed_store (shard_hasher : RandomState TimingKey)
    (scalar_hasher : RandomState ScalarKey) (ops : List Registration) :
    ∃ outcomes r timing scalars,
      (Registry.new shard_hasher scalar_hasher).calls ops = (outcomes, r)
      ∧ outcomes.map Prod.fst = ops
      ∧ (∀ c ∈ outcomes, ∀ message, c.2 = .error message ↔ c.1.rejection = some message)
      ∧ (∀ a ∈ accepted outcomes, ∀ b ∈ accepted outcomes, a.slot = b.slot ↔ a.key = b.key)
      ∧ r.for_each_meta = some timing ∧ r.scalars.for_each = some scalars
      ∧ (timing.map MetricMeta.registered ++ scalars.map ScalarMeta.registered).Perm
          (firsts Entry.key (accepted outcomes))
      ∧ (∀ a ∈ accepted outcomes,
          ∃ m ∈ timing.map MetricMeta.registered ++ scalars.map ScalarMeta.registered,
            m.key = a.key ∧ m.slot = a.slot)
      ∧ r.len = ((accepted outcomes).map Entry.key).toFinset.card := by
  obtain ⟨logs, scalars, store, hrep, hruns, hops, hout, -⟩ :=
    (represents_new shard_hasher scalar_hasher).calls ops
  generalize (Registry.new shard_hasher scalar_hasher).calls ops = result at *
  obtain ⟨outcomes, r⟩ := result
  refine ⟨outcomes, r, flat logs, flat scalars, rfl, hops, hout,
    fun a ha b hb => hruns.slot_eq_iff ha hb, hrep.inv.for_each_meta,
    hrep.inv.scalars.for_each, ?_, ?_, ?_⟩
  · rw [← hruns.entries]
    exact hrep.listed
  · intro a ha
    obtain ⟨entry, hentry, hkeys⟩ := hruns.stored a ha
    exact ⟨entry, hrep.listed.mem_iff.mpr hentry, hkeys⟩
  · rw [← hruns.length, ← hrep.listed.length_eq, hrep.inv.len]
    simp

end BrzMetrics
