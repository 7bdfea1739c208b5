/-
A whole process, one shared-memory access at a time.

Any number of threads call the public functions: constructors and state records,
updates of the handles that have been returned, and readers that are built while
all of this goes on. `Process.step` is one access by whoever has the turn.
A constructor runs its critical sections one by one: it waits for the mutex of a
shard, looks its key up, makes its accesses, and returns (`Writers`). An update is
its atomic operations. `PrometheusReader::new` traverses the timing shards, then
the scalar shards, and then takes the states (`Visitor`).

The shards of a process are those of `Traversals`: every move of a process is at
most one turn there (`Process.step_timing`, `Process.step_scalars`), so what holds
along the schedules of `Traversals` holds of a process. `history` and `order`
record what happened: when a section was entered and left, and in which order the
sections took their mutexes.
-/
import BrzMetrics.Linearize
import BrzMetrics.Traversal
import BrzMetrics.Recording
import BrzMetrics.ScalarCalls

set_option autoImplicit false

namespace BrzMetrics

open KeyedStore Linearize

/-! ## What a registration returns -/

/-- The slots of the two kinds of shard: the one a map has for a key, and the one of an entry. -/
class ShardSlots (σ : Type) (T C K I : outParam Type) [ShardKind σ T C K] where
  found : σ → K → Option I
  slot : T → I
  known_eq : ∀ s k, ShardKind.known s k = (found s k).isSome
  found_iff : ∀ {s : σ} {log : List T}, ShardKind.holds s log → ∀ k i,
    found s k = some i ↔ ∃ entry ∈ log, ShardKind.key σ entry = k ∧ slot entry = i

instance Shard.slots : ShardSlots Shard MetricMeta ProfileMeta TimingKey ItemPtr where
  found := find
  slot := MetricMeta.item
  known_eq _ _ := rfl
  found_iff h := h.holds.find

instance ScalarShard.slots :
    ShardSlots ScalarShard ScalarMeta ScalarShard.Request ScalarKey ScalarPtr where
  found := find
  slot := ScalarMeta.item
  known_eq _ _ := rfl
  found_iff h := h.holds.find

/-- The slot that a call which holds the mutex will return: the one its key has, or the one its
entry gets. -/
def Lane.result {σ T C K I : Type} [ShardKind σ T C K] [ShardSlots σ T C K I] (self : Lane σ T K)
    (call : C) : I :=
  (ShardSlots.found self.shard (ShardKind.call_key σ call)).getD
    (ShardSlots.slot σ (ShardKind.call_entry self.shard call))

/-- The arguments of a registration, as those of a call on a timing shard or a scalar shard. -/
def Registration.target : Registration → ProfileMeta ⊕ ScalarShard.Request
  | .register name kind => .inl (.Single name kind)
  | .register_resource kind labels => .inl (.Resource labels kind)
  | .register_profile plan => .inl (.Fanout plan)
  | .scalar_register kind mode name => .inr ⟨kind, mode, name, none⟩
  | .scalar_register_resource kind mode labels => .inr ⟨kind, mode, labels.name, some labels⟩

/-- The handle on a scalar slot. -/
def ScalarKind.handle : ScalarKind → ScalarPtr → Handle
  | .Counter, item => .counter { item := item }
  | .Gauge, item => .gauge { item := item }

/-- A critical section as an operation on the registry: what it returns, and what it leaves. -/
def Access.effect (self : Access) (r : Registry) : Option Handle × Registry :=
  match self with
  | .registration op =>
    match op.issue r with
    | .ok handle after => (some handle, after)
    | .error _ after => (none, after)
  | .record_state name key value => (none, r.record_state .Rpc name key value)

/-! ## Threads -/

/-- What differs from one process to the next: the hash functions that the seeds pick, and the
addresses of the slots. -/
structure Host where
  shard_hasher : RandomState TimingKey
  scalar_hasher : RandomState ScalarKey
  layout : Layout

/-- The shard of a timing key. -/
def Host.timing_route (self : Host) (k : TimingKey) : Fin SHARD_COUNT :=
  select_shard (self.shard_hasher.hash_one k)

/-- The shard of a scalar key. -/
def Host.scalar_route (self : Host) (k : ScalarKey) : Fin SHARD_COUNT :=
  select_shard (self.scalar_hasher.hash_one k)

/-- The mutexes. -/
inductive Place where
  | timing (shard : Fin SHARD_COUNT)
  | scalar (shard : Fin SHARD_COUNT)
  | states
deriving DecidableEq

/-- A call that updates what a handle stands for. -/
inductive UpdateCall where
  | timing (call : HandleCall)
  | scalar (call : ScalarCall)

namespace UpdateCall

/-- The atomic operations of the call. -/
def ops : UpdateCall → List ScalarOp
  | .timing call => call.ops.map .fetch_add
  | .scalar call => call.ops

/-- The handle the call is made on. -/
def handle : UpdateCall → Handle
  | .timing call => call.handle
  | .scalar call => match call with
    | .counter_inc counter | .counter_add counter _ => .counter counter
    | .gauge_inc gauge | .gauge_dec gauge | .gauge_add gauge _ | .gauge_set gauge _ => .gauge gauge

end UpdateCall

/-- Where a thread is. -/
inductive ThreadPc where
  /-- In none of the functions below. -/
  | outside
  /-- In front of the mutex of a section. -/
  | waiting (access : Access)
  /-- Inside, with the mutex held, and what will be returned. -/
  | inside (access : Access) (place : Place) (result : Option Handle)
  /-- In an update, with the operations that are left. -/
  | updating (ops : List ScalarOp)

/-- A thread, and the sections of its current call that it has not reached. -/
structure Thread where
  pc : ThreadPc
  todo : List Access

/-- A thread that is not in a call. -/
def Thread.idle : Thread := { pc := .outside, todo := [] }

/-- Where a thread is in its section, as far as the section is concerned. -/
def ThreadPc.phase : ThreadPc → Phase Access (Option Handle)
  | .outside | .updating _ => .idle
  | .waiting access => .called access
  | .inside access _ result => .performed access result

/-! ## The process -/

/-- A process. `states_holder` is the thread that holds the mutex of the states. -/
structure Process where
  timing : Traversals Shard MetricMeta TimingKey
  scalars : Traversals ScalarShard ScalarMeta ScalarKey
  states : StateRegistry
  states_holder : Option ℕ
  memory : Memory
  threads : ℕ → Thread
  readers : ℕ → Option PrometheusReader
  history : List (Event ℕ Access (Option Handle))
  order : List (Effect ℕ Access (Option Handle))

/-- Whose turn it is, and what they do.

* `call`: a thread calls a public constructor, or records a state;
* `enter`: it goes to the next critical section of the call;
* `lock`: it takes the mutex;
* `access`: it makes one access;
* `unlock`: it releases the mutex and has its result;
* `update`: a thread calls an update;
* `apply`: it makes the next operation of the update, or returns;
* `read`: `PrometheusReader::new` takes one step; `order` is that of the states' hash maps. -/
inductive Move where
  | call (thread : ℕ) (call : PublicCall)
  | enter (thread : ℕ)
  | lock (thread : ℕ)
  | access (thread : ℕ)
  | unlock (thread : ℕ)
  | update (thread : ℕ) (call : UpdateCall)
  | apply (thread : ℕ)
  | read (reader : ℕ) (order : IterOrder)

namespace Process

/-- A process that has done nothing. -/
def new : Process where
  timing := Traversals.new
  scalars := Traversals.new
  states := StateRegistry.default
  states_holder := none
  memory := Memory.zero
  threads := fun _ => Thread.idle
  readers := fun _ => none
  history := []
  order := []

/-- The handles that threads have got. -/
def returned (self : Process) : List Handle :=
  self.history.filterMap (fun
    | .invoke _ _ => none
    | .respond _ result => result)

/-- A thread goes on. -/
def set_thread (t : ℕ) (thread : Thread) (self : Process) : Process :=
  { self with threads := Function.update self.threads t thread }

/-- A thread goes on within its call. -/
def set_pc (t : ℕ) (pc : ThreadPc) (self : Process) : Process :=
  self.set_thread t { pc := pc, todo := (self.threads t).todo }

/-- A thread has taken the mutex of its section. -/
def locked (t : ℕ) (access : Access) (place : Place) (result : Option Handle) (self : Process) :
    Process :=
  { self.set_pc t (.inside access place result) with
    order := self.order ++ [⟨t, access, result⟩] }

/-- A thread has released the mutex of its section. -/
def unlocked (t : ℕ) (result : Option Handle) (self : Process) : Process :=
  { self.set_pc t .outside with history := self.history ++ [.respond t result] }

/-- A thread takes the mutex of its section, and looks its key up. -/
def take_lock (host : Host) (t : ℕ) (access : Access) (self : Process) : Option Process :=
  match access with
  | .record_state name key value =>
    -- nobody else sees the map of states before the mutex is released
    match self.states_holder with
    | some _ => none
    | none =>
      some { self.locked t access .states none with
        states_holder := some t
        states := self.states.record .Rpc name key value }
  | .registration op =>
    match op.target with
    | .inl profile =>
      let shard := host.timing_route profile.key
      let item := (self.timing.lanes shard).result profile
      (self.timing.step host.timing_route (.lock profile)).map (fun timing =>
        { self.locked t access (.timing shard)
            (some (.metric (Metric.from_item item profile.policy)))
          with timing := timing })
    | .inr request =>
      let shard := host.scalar_route request.key
      let item := (self.scalars.lanes shard).result request
      (self.scalars.step host.scalar_route (.lock request)).map (fun scalars =>
        { self.locked t access (.scalar shard) (some (request.mode.handle item))
          with scalars := scalars })

/-- The next access of a thread that holds a mutex. -/
def make_access (host : Host) (place : Place) (self : Process) : Option Process :=
  match place with
  | .timing shard =>
    (self.timing.step host.timing_route (.access shard)).map (fun timing =>
      { self with timing := timing })
  | .scalar shard =>
    (self.scalars.step host.scalar_route (.access shard)).map (fun scalars =>
      { self with scalars := scalars })
  | .states => none

/-- The end of a section. -/
def release (host : Host) (t : ℕ) (place : Place) (result : Option Handle) (self : Process) :
    Option Process :=
  match place with
  | .timing shard =>
    (self.timing.step host.timing_route (.unlock shard)).map (fun timing =>
      { self.unlocked t result with timing := timing })
  | .scalar shard =>
    (self.scalars.step host.scalar_route (.unlock shard)).map (fun scalars =>
      { self.unlocked t result with scalars := scalars })
  | .states => some { self.unlocked t result with states_holder := none }

/-- The entries a finished traversal has passed to its closure, in order. -/
def traversed {T : Type} (visitor : Visitor T) : List T := flat visitor.visited

/-- One step of `PrometheusReader::from_registry`: of the traversal of the timing shards, then of
that of the scalar shards, and then the rest. -/
def build (host : Host) (v : ℕ) (order : IterOrder) (self : Process) : Option Process :=
  if (self.timing.visitors v).shard < SHARD_COUNT then
    (self.timing.step host.timing_route (.visit v)).map (fun timing =>
      { self with timing := timing })
  else if (self.scalars.visitors v).shard < SHARD_COUNT then
    (self.scalars.step host.scalar_route (.visit v)).map (fun scalars =>
      { self with scalars := scalars })
  else match self.readers v, self.states_holder with
    | some _, _ => none
    | none, some _ => none
    | none, none =>
      let sources := kept host.layout
        (captured (traversed (self.timing.visitors v)) (traversed (self.scalars.visitors v)))
      some { self with
        readers := Function.update self.readers v
          (some (PrometheusReader.start sources (self.states.snapshot order))) }

/-- One move. `none`: it cannot be made, as the thread is elsewhere or the mutex is held. -/
def step (host : Host) (self : Process) : Move → Option Process
  | .call t call =>
    match self.threads t with
    | ⟨.outside, []⟩ => some (self.set_thread t ⟨.outside, call.accesses⟩)
    | _ => none
  | .enter t =>
    match self.threads t with
    | ⟨.outside, access :: todo⟩ =>
      some { self.set_thread t ⟨.waiting access, todo⟩ with
        history := self.history ++ [.invoke t access] }
    | _ => none
  | .lock t =>
    match (self.threads t).pc with
    | .waiting access => self.take_lock host t access
    | _ => none
  | .access t =>
    match (self.threads t).pc with
    | .inside _ place _ => self.make_access host place
    | _ => none
  | .unlock t =>
    match (self.threads t).pc with
    | .inside _ place result => self.release host t place result
    | _ => none
  | .update t call =>
    match self.threads t with
    | ⟨.outside, []⟩ =>
      -- a handle can be used once some thread has got it
      if call.handle ∈ self.returned then
        some (self.set_thread t ⟨.updating call.ops, []⟩)
      else none
    | _ => none
  | .apply t =>
    match (self.threads t).pc with
    | .updating [] => some (self.set_pc t .outside)
    | .updating (op :: ops) =>
      some { self.set_pc t (.updating ops) with memory := op.apply self.memory }
    | _ => none
  | .read v order => self.build host v order

/-- A schedule, from some state on. -/
def run (host : Host) (self : Process) (schedule : List Move) : Option Process :=
  schedule.foldlM (step host) self

/-! ## What a move can do -/

/-- The moves of a process, with what they do. -/
inductive Happens (host : Host) (p : Process) : Move → Process → Prop where
  | call (t : ℕ) (call : PublicCall) (h : p.threads t = ⟨.outside, []⟩) :
      Happens host p (.call t call) (p.set_thread t ⟨.outside, call.accesses⟩)
  | enter (t : ℕ) (access : Access) (todo : List Access)
      (h : p.threads t = ⟨.outside, access :: todo⟩) :
      Happens host p (.enter t) { p.set_thread t ⟨.waiting access, todo⟩ with
        history := p.history ++ [.invoke t access] }
  | lock_timing (t : ℕ) (op : Registration) (profile : ProfileMeta)
      (timing : Traversals Shard MetricMeta TimingKey)
      (h : (p.threads t).pc = .waiting (.registration op)) (htarget : op.target = .inl profile)
      (hstep : p.timing.step host.timing_route (.lock profile) = some timing) :
      Happens host p (.lock t) { p.locked t (.registration op)
        (.timing (host.timing_route profile.key)) (some (.metric (Metric.from_item
          ((p.timing.lanes (host.timing_route profile.key)).result profile) profile.policy)))
        with timing := timing }
  | lock_scalar (t : ℕ) (op : Registration) (request : ScalarShard.Request)
      (scalars : Traversals ScalarShard ScalarMeta ScalarKey)
      (h : (p.threads t).pc = .waiting (.registration op)) (htarget : op.target = .inr request)
      (hstep : p.scalars.step host.scalar_route (.lock request) = some scalars) :
      Happens host p (.lock t) { p.locked t (.registration op)
        (.scalar (host.scalar_route request.key)) (some (request.mode.handle
          ((p.scalars.lanes (host.scalar_route request.key)).result request)))
        with scalars := scalars }
  | lock_states (t : ℕ) (name key value : String)
      (h : (p.threads t).pc = .waiting (.record_state name key value))
      (hfree : p.states_holder = none) :
      Happens host p (.lock t) { p.locked t (.record_state name key value) .states none with
        states_holder := some t
        states := p.states.record .Rpc name key value }
  | access_timing (t : ℕ) (access : Access) (shard : Fin SHARD_COUNT) (result : Option Handle)
      (timing : Traversals Shard MetricMeta TimingKey)
      (h : (p.threads t).pc = .inside access (.timing shard) result)
      (hstep : p.timing.step host.timing_route (.access shard) = some timing) :
      Happens host p (.access t) { p with timing := timing }
  | access_scalar (t : ℕ) (access : Access) (shard : Fin SHARD_COUNT) (result : Option Handle)
      (scalars : Traversals ScalarShard ScalarMeta ScalarKey)
      (h : (p.threads t).pc = .inside access (.scalar shard) result)
      (hstep : p.scalars.step host.scalar_route (.access shard) = some scalars) :
      Happens host p (.access t) { p with scalars := scalars }
  | unlock_timing (t : ℕ) (access : Access) (shard : Fin SHARD_COUNT) (result : Option Handle)
      (timing : Traversals Shard MetricMeta TimingKey)
      (h : (p.threads t).pc = .inside access (.timing shard) result)
      (hstep : p.timing.step host.timing_route (.unlock shard) = some timing) :
      Happens host p (.unlock t) { p.unlocked t result with timing := timing }
  | unlock_scalar (t : ℕ) (access : Access) (shard : Fin SHARD_COUNT) (result : Option Handle)
      (scalars : Traversals ScalarShard ScalarMeta ScalarKey)
      (h : (p.threads t).pc = .inside access (.scalar shard) result)
      (hstep : p.scalars.step host.scalar_route (.unlock shard) = some scalars) :
      Happens host p (.unlock t) { p.unlocked t result with scalars := scalars }
  | unlock_states (t : ℕ) (access : Access) (result : Option Handle)
      (h : (p.threads t).pc = .inside access .states result) :
      Happens host p (.unlock t) { p.unlocked t result with states_holder := none }
  | update (t : ℕ) (call : UpdateCall) (h : p.threads t = ⟨.outside, []⟩)
      (hreturned : call.handle ∈ p.returned) :
      Happens host p (.update t call) (p.set_thread t ⟨.updating call.ops, []⟩)
  | apply_last (t : ℕ) (h : (p.threads t).pc = .updating []) :
      Happens host p (.apply t) (p.set_pc t .outside)
  | apply (t : ℕ) (op : ScalarOp) (ops : List ScalarOp)
      (h : (p.threads t).pc = .updating (op :: ops)) :
      Happens host p (.apply t) { p.set_pc t (.updating ops) with memory := op.apply p.memory }
  | visit_timing (v : ℕ) (order : IterOrder) (timing : Traversals Shard MetricMeta TimingKey)
      (hstep : p.timing.step host.timing_route (.visit v) = some timing) :
      Happens host p (.read v order) { p with timing := timing }
  | visit_scalars (v : ℕ) (order : IterOrder)
      (scalars : Traversals ScalarShard ScalarMeta ScalarKey)
      (hdone : ¬ (p.timing.visitors v).shard < SHARD_COUNT)
      (hstep : p.scalars.step host.scalar_route (.visit v) = some scalars) :
      Happens host p (.read v order) { p with scalars := scalars }
  | built (v : ℕ) (order : IterOrder) (hdone : ¬ (p.timing.visitors v).shard < SHARD_COUNT)
      (hdone' : ¬ (p.scalars.visitors v).shard < SHARD_COUNT) (hnew : p.readers v = none)
      (hfree : p.states_holder = none) :
      Happens host p (.read v order) { p with
        readers := Function.update p.readers v (some (PrometheusReader.start
        (kept host.layout
          (captured (traversed (p.timing.visitors v)) (traversed (p.scalars.visitors v))))
        (p.states.snapshot order))) }

/-- A move is one of these. -/
theorem step_happens {host : Host} {p p' : Process} {move : Move} (h : p.step host move = some p') :
    p.Happens host move p' := by
  cases move with
  | call t call =>
    simp only [step] at h
    split at h
    · obtain rfl := Option.some.inj h
      exact .call t call ‹_›
    · cases h
  | enter t =>
    simp only [step] at h
    split at h
    · obtain rfl := Option.some.inj h
      exact .enter t _ _ ‹_›
    · cases h
  | lock t =>
    simp only [step] at h
    split at h
    · rename_i access hpc
      cases access with
      | record_state name key value =>
        simp only [take_lock] at h
        split at h
        · cases h
        · obtain rfl := Option.some.inj h
          exact .lock_states t name key value hpc ‹_›
      | registration op =>
        simp only [take_lock] at h
        split at h
        · obtain ⟨timing, hstep, rfl⟩ := Option.map_eq_some_iff.mp h
          exact .lock_timing t op _ timing hpc ‹_› hstep
        · obtain ⟨scalars, hstep, rfl⟩ := Option.map_eq_some_iff.mp h
          exact .lock_scalar t op _ scalars hpc ‹_› hstep
    · cases h
  | access t =>
    simp only [step] at h
    split at h
    · rename_i access place result hpc
      cases place with
      | timing shard =>
        obtain ⟨timing, hstep, rfl⟩ := Option.map_eq_some_iff.mp h
        exact .access_timing t access shard result timing hpc hstep
      | scalar shard =>
        obtain ⟨scalars, hstep, rfl⟩ := Option.map_eq_some_iff.mp h
        exact .access_scalar t access shard result scalars hpc hstep
      | states => cases h
    · cases h
  | unlock t =>
    simp only [step] at h
    split at h
    · rename_i access place result hpc
      cases place with
      | timing shard =>
        obtain ⟨timing, hstep, rfl⟩ := Option.map_eq_some_iff.mp h
        exact .unlock_timing t access shard result timing hpc hstep
      | scalar shard =>
        obtain ⟨scalars, hstep, rfl⟩ := Option.map_eq_some_iff.mp h
        exact .unlock_scalar t access shard result scalars hpc hstep
      | states =>
        obtain rfl := Option.some.inj h
        exact .unlock_states t access result hpc
    · cases h
  | update t call =>
    simp only [step] at h
    split at h
    · split at h
      · obtain rfl := Option.some.inj h
        exact .update t call ‹_› ‹_›
      · cases h
    · cases h
  | apply t =>
    simp only [step] at h
    split at h
    · obtain rfl := Option.some.inj h
      exact .apply_last t ‹_›
    · obtain rfl := Option.some.inj h
      exact .apply t _ _ ‹_›
    · cases h
  | read v order =>
    simp only [step, build] at h
    split at h
    · obtain ⟨timing, hstep, rfl⟩ := Option.map_eq_some_iff.mp h
      exact .visit_timing v order timing hstep
    · split at h
      · obtain ⟨scalars, hstep, rfl⟩ := Option.map_eq_some_iff.mp h
        exact .visit_scalars v order scalars ‹_› hstep
      · split at h
        · cases h
        · cases h
        · obtain rfl := Option.some.inj h
          exact .built v order ‹_› ‹_› ‹_› ‹_›

end Process

end BrzMetrics
