/-
What a process does with its registry.

The public calls of any number of threads interleave critical section by
critical section; `History` is such a run, and its registry after any number of
sections is what a reader may find. The registrations inside the registry check
nothing but the codes of scalars, so what every entry of a reachable registry
satisfies is owed to the constructors (`Registration.Checked`). Every point of a
history represents a keyed store (`History.reached`), and the handles issued so
far are the calls of that store's run.
-/
import BrzMetrics.Api
import BrzMetrics.Interleave

set_option autoImplicit false

namespace BrzMetrics

open KeyedStore Interleave

/-! ## What a registration returns -/

/-- The policy every handle on a key's slot carries. -/
def TimingKey.policy : TimingKey → MetricPolicy
  | .named _ kind | .resource kind _ => kind.policy
  | .profile _ policy => policy

/-- Whether a key belongs to a counter or to a gauge. -/
def ScalarKey.mode : ScalarKey → ScalarKind
  | .named _ mode _ | .resource _ mode _ => mode

/-- The handles that may be issued for a key. -/
inductive Handle.Of : StoreKey → Handle → Prop where
  | metric (key : TimingKey) (item : ItemPtr) :
      Of (.timing key) (.metric (Metric.from_item item key.policy))
  | counter (key : ScalarKey) (item : ScalarPtr) (hmode : key.mode = .Counter) :
      Of (.scalar key) (.counter { item := item })
  | gauge (key : ScalarKey) (item : ScalarPtr) (hmode : key.mode = .Gauge) :
      Of (.scalar key) (.gauge { item := item })

/-- A registration that is not rejected issues a handle of its key and is a step of the store. -/
theorem Represents.issue {r : Registry} {logs : Fin SHARD_COUNT → List MetricMeta}
    {scalars : Fin SHARD_COUNT → List ScalarMeta} {store : Store StoreKey Metadata SlotPtr}
    (h : Represents r logs scalars store) {op : Registration} (hop : op.rejection = none) :
    ∃ handle r' logs' scalars' store', op.issue r = .ok handle r'
      ∧ Handle.Of op.key handle ∧ Represents r' logs' scalars' store'
      ∧ Registers store (op.returned handle.slot) store' ∧ r'.states = r.states := by
  have htiming : ∀ profile : ProfileMeta, ∃ item r' logs' store',
      (do return .metric (← Registry.enroll profile) : EStateM String Registry Handle) r
        = .ok (.metric (Metric.from_item item profile.key.policy)) r'
      ∧ Represents r' logs' scalars store'
      ∧ Registers store (MetricMeta.mk item profile).registered store'
      ∧ r'.states = r.states := by
    intro profile
    obtain ⟨item, r', logs', store', hok, hrest⟩ := h.enroll_timing profile
    have hpolicy : profile.policy = profile.key.policy := by cases profile <;> rfl
    rw [hpolicy] at hok
    exact ⟨item, r', logs', store', return_ok hok Handle.metric, hrest⟩
  cases op with
  | register name kind =>
    obtain ⟨item, r', logs', store', hok, hrep, hstep, hstates⟩ := htiming (.Single name kind)
    exact ⟨_, r', logs', scalars, store', hok, .metric _ item, hrep, hstep, hstates⟩
  | register_resource kind labels =>
    obtain ⟨item, r', logs', store', hok, hrep, hstep, hstates⟩ := htiming (.Resource labels kind)
    exact ⟨_, r', logs', scalars, store', hok, .metric _ item, hrep, hstep, hstates⟩
  | register_profile plan =>
    obtain ⟨item, r', logs', store', hok, hrep, hstep, hstates⟩ := htiming (.Fanout plan)
    exact ⟨_, r', logs', scalars, store', hok, .metric _ item, hrep, hstep, hstates⟩
  | scalar_register kind mode name =>
    obtain ⟨item, r', scalars', store', hok, hrep, hstep, hstates⟩ :=
      h.enroll_scalar (MetricType.rejection_eq_none.mp hop) mode name none
    -- the mode decides which wrapper the slot is returned in
    cases mode with
    | Counter =>
      exact ⟨.counter ⟨item⟩, r', logs, scalars', store',
        return_ok (return_ok hok CounterMetric.mk) Handle.counter, .counter _ item rfl, hrep, hstep,
        hstates⟩
    | Gauge =>
      exact ⟨.gauge ⟨item⟩, r', logs, scalars', store',
        return_ok (return_ok hok GaugeMetric.mk) Handle.gauge, .gauge _ item rfl, hrep, hstep,
        hstates⟩
  | scalar_register_resource kind mode labels =>
    obtain ⟨item, r', scalars', store', hok, hrep, hstep, hstates⟩ :=
      h.enroll_scalar (MetricType.rejection_eq_none.mp hop) mode labels.name (some labels)
    cases mode with
    | Counter =>
      exact ⟨.counter ⟨item⟩, r', logs, scalars', store',
        return_ok (return_ok hok CounterMetric.mk) Handle.counter, .counter _ item rfl, hrep, hstep,
        hstates⟩
    | Gauge =>
      exact ⟨.gauge ⟨item⟩, r', logs, scalars', store',
        return_ok (return_ok hok GaugeMetric.mk) Handle.gauge, .gauge _ item rfl, hrep, hstep,
        hstates⟩

/-! ## Histories -/

/-- A handle and the registration it was issued for. -/
abbrev Issued := Registration × Handle

/-- Run one more critical section: the handles issued so far, and the registry. -/
def Access.perform (state : List Issued × Registry) : Access → List Issued × Registry
  | .registration op =>
    match op.issue state.2 with
    | .ok handle after => (state.1 ++ [(op, handle)], after)
    | .error _ after => (state.1, after)
  | .record_state name key value => (state.1, state.2.record_state .Rpc name key value)

/-- What a process does with its registry: the calls of all its threads, and the order in which
their critical sections happened. -/
structure History where
  shard_hasher : RandomState TimingKey
  scalar_hasher : RandomState ScalarKey
  calls : List PublicCall
  accesses : List Access
  interleaved : Interleaves (calls.map PublicCall.accesses) accesses

namespace History

/-- The calls of one thread, one after the other. -/
def sequential (shard_hasher : RandomState TimingKey) (scalar_hasher : RandomState ScalarKey)
    (calls : List PublicCall) : History where
  shard_hasher := shard_hasher
  scalar_hasher := scalar_hasher
  calls := calls
  accesses := (calls.map PublicCall.accesses).flatten
  interleaved := Interleaves.sequential _

/-- The state after the first `n` critical sections. -/
def state (self : History) (n : ℕ) : List Issued × Registry :=
  (self.accesses.take n).foldl Access.perform
    ([], Registry.new self.shard_hasher self.scalar_hasher)

/-- The handles issued by the first `n` critical sections. -/
def issued (self : History) (n : ℕ) : List Issued := (self.state n).1

/-- The registry after the first `n` critical sections. -/
def registry (self : History) (n : ℕ) : Registry := (self.state n).2

end History

/-! ## What the constructors have checked -/

/-- A timing registration of a public constructor is never of a connection kind or of an invalid
code, and no registration is of an invalid code. -/
def Registration.Checked : Registration → Prop
  | .register _ kind | .register_resource kind _ => kind.rejection = none ∧ kind.is_conn = false
  | .register_profile _ => True
  | .scalar_register kind _ _ | .scalar_register_resource kind _ _ => kind.rejection = none

/-- A checked registration is not rejected. -/
theorem Registration.Checked.accepted {op : Registration} (h : op.Checked) :
    op.rejection = none := by
  cases op with
  | register _ _ | register_resource _ _ | register_profile _ => rfl
  | scalar_register _ _ _ | scalar_register_resource _ _ _ => exact h

/-- A critical section that runs a checked registration, or none. -/
def Access.Checked : Access → Prop
  | .registration op => op.Checked
  | .record_state _ _ _ => True

/-- A valid kind has a valid code. -/
theorem MetricType.valid_of_rejection {code : UInt16}
    (h : MetricType.rejection (.Api code) = none) : MetricType.valid_code code = true := by
  by_contra hcode
  simp [rejection, validate, hcode] at h

/-- A connection kind carries no code. -/
theorem MetricType.rejection_of_is_conn {kind : MetricType} (h : kind.is_conn = true) :
    kind.rejection = none := by
  cases kind <;> first | rfl | simp [is_conn] at h

/-- Both conditions of a timing constructor. -/
theorem checked_of_rejection {kind : MetricType} {message : String}
    (h : kind.rejection.or (if kind.is_conn then some message else none) = none) :
    kind.rejection = none ∧ kind.is_conn = false := by
  obtain ⟨hkind, hconn⟩ := Option.or_eq_none_iff.mp h
  refine ⟨hkind, Bool.eq_false_iff.mpr (fun hc => ?_)⟩
  rw [if_pos hc] at hconn
  exact absurd hconn (by simp)

/-- Every critical section of a public constructor is checked. -/
theorem PublicCall.checked (call : PublicCall) : ∀ access ∈ call.accesses, access.Checked := by
  intro access haccess
  unfold accesses at haccess
  split_ifs at haccess with hrejection
  · have hconn : ∀ {kind : MetricType}, (if kind.is_conn then none else some not_a_connection) = none
        → kind.rejection = none := by
      intro kind hkind
      by_cases hc : kind.is_conn = true
      · exact MetricType.rejection_of_is_conn hc
      · rw [if_neg hc] at hkind
        exact absurd hkind (by simp)
    cases call with
    | metric_new kind name | metric_new_resource kind labels =>
      rw [List.mem_singleton.mp haccess]
      exact checked_of_rejection hrejection
    | api_status name status_code =>
      rw [List.mem_singleton.mp haccess]
      exact ⟨hrejection, rfl⟩
    | counter_new kind _ | counter_new_resource kind _ | gauge_new kind _
    | gauge_new_resource kind _ =>
      rw [List.mem_singleton.mp haccess]
      exact hrejection
    | conn_new kind _ | conn_new_resource kind _ =>
      -- the gauge and the counter are registered under the same kind
      rcases List.mem_cons.mp haccess with rfl | haccess
      · exact hconn hrejection
      · rw [List.mem_singleton.mp haccess]
        exact hconn hrejection
    | register_profile _ | record_rpc_state _ _ _ =>
      rw [List.mem_singleton.mp haccess]
      trivial
    | log _ | redis _ | mysql _ | mc _ | mc_detail _ | http _ | http_all _ | api _ | api_3xx _
    | api_4xx _ | api_5xx _ | api_timeout _ | service _ | rpc_service_whole _ =>
      rw [List.mem_singleton.mp haccess]
      exact ⟨rfl, rfl⟩
  · exact absurd haccess List.not_mem_nil

/-- A history runs only checked sections. -/
theorem History.checked (self : History) : ∀ access ∈ self.accesses, access.Checked := by
  intro access haccess
  have hmem := self.interleaved.perm.mem_iff.mp haccess
  obtain ⟨sections, hsections, hmem⟩ := List.mem_flatten.mp hmem
  obtain ⟨call, -, rfl⟩ := List.mem_map.mp hsections
  exact call.checked access hmem

/-! ## Reachable registries -/

/-- What a handle was issued for, as an entry of the store. -/
def Issued.entry (self : Issued) : Registered := self.1.returned self.2.slot

/-- The registry of a history at some point, and the store it represents. -/
structure History.Reached (history : History) (n : ℕ) (logs : Fin SHARD_COUNT → List MetricMeta)
    (scalars : Fin SHARD_COUNT → List ScalarMeta)
    (store : Store StoreKey Metadata SlotPtr) : Prop where
  represents : Represents (history.registry n) logs scalars store
  runs : Runs Store.empty ((history.issued n).map Issued.entry) store
  checked : ∀ h ∈ history.issued n, h.1.Checked
  handles : ∀ h ∈ history.issued n, Handle.Of h.1.key h.2

/-- What the constructors have checked about a timing entry. -/
def ProfileMeta.Checked : ProfileMeta → Prop
  | .Single _ kind | .Resource _ kind => kind.rejection = none ∧ kind.is_conn = false
  | .Fanout _ => True

/-- What the constructors have checked about a scalar entry; its name is that of its labels. -/
structure ScalarMeta.Checked (entry : ScalarMeta) : Prop where
  kind : entry.kind.rejection = none
  named : ∀ labels ∈ entry.resource, entry.name = labels.name

section Reached

variable {history : History} {n : ℕ} {logs : Fin SHARD_COUNT → List MetricMeta}
  {scalars : Fin SHARD_COUNT → List ScalarMeta} {store : Store StoreKey Metadata SlotPtr}

/-- Every entry a reader finds was issued to a checked registration. -/
theorem History.Reached.origin (h : history.Reached n logs scalars store) :
    ∀ entry ∈ (flat logs).map MetricMeta.registered ++ (flat scalars).map ScalarMeta.registered,
      ∃ op handle, (op, handle) ∈ history.issued n ∧ op.Checked
        ∧ entry = op.returned handle.slot := by
  intro entry hentry
  have hstored := h.runs.origin entry (h.represents.listed.mem_iff.mp hentry)
  obtain ⟨⟨op, handle⟩, hissued, rfl⟩ := List.mem_map.mp hstored
  exact ⟨op, handle, hissued, h.checked _ hissued, rfl⟩

/-- Every timing entry is checked. -/
theorem History.Reached.timing_checked (h : history.Reached n logs scalars store) :
    ∀ entry ∈ flat logs, entry.profile.Checked := by
  intro entry hentry
  obtain ⟨op, handle, -, hchecked, heq⟩ :=
    h.origin _ (List.mem_append_left _ (List.mem_map_of_mem hentry))
  have hvalue : Metadata.timing entry.profile = op.metadata := congrArg Entry.value heq
  cases op with
  | register _ _ | register_resource _ _ | register_profile _ =>
    rw [Metadata.timing.inj hvalue]
    exact hchecked
  | scalar_register _ _ _ | scalar_register_resource _ _ _ => exact Metadata.noConfusion hvalue

/-- Every scalar entry is checked. -/
theorem History.Reached.scalar_checked (h : history.Reached n logs scalars store) :
    ∀ entry ∈ flat scalars, entry.Checked := by
  intro entry hentry
  obtain ⟨op, handle, -, hchecked, heq⟩ :=
    h.origin _ (List.mem_append_right _ (List.mem_map_of_mem hentry))
  have hvalue : Metadata.scalar entry.name entry.resource entry.kind entry.mode = op.metadata :=
    congrArg Entry.value heq
  cases op with
  | register _ _ | register_resource _ _ | register_profile _ => exact Metadata.noConfusion hvalue
  | scalar_register kind mode name =>
    obtain ⟨-, hresource, hkind, -⟩ := Metadata.scalar.inj hvalue
    exact ⟨by rw [hkind]; exact hchecked, by simp [hresource]⟩
  | scalar_register_resource kind mode labels =>
    obtain ⟨hname, hresource, hkind, -⟩ := Metadata.scalar.inj hvalue
    refine ⟨by rw [hkind]; exact hchecked, fun labels' hlabels => ?_⟩
    rw [hresource, Option.mem_some_iff] at hlabels
    rw [hname, hlabels]

end Reached

/-! ## Every point is reached -/

/-- One more critical section of a history. -/
theorem History.state_succ (history : History) {n : ℕ} (hn : n < history.accesses.length) :
    history.state (n + 1) = Access.perform (history.state n) history.accesses[n] := by
  rw [state, state, List.take_succ_eq_append_getElem hn, List.foldl_append]
  rfl

/-- A history that has ended stays as it is. -/
theorem History.state_of_length_le (history : History) {n : ℕ} (hn : history.accesses.length ≤ n) :
    history.state (n + 1) = history.state n := by
  rw [state, state, List.take_of_length_le hn, List.take_of_length_le (Nat.le_succ_of_le hn)]

/-- The store only grows from one point of a history to the next. -/
theorem History.Reached.succ {history : History} {n : ℕ} {logs : Fin SHARD_COUNT → List MetricMeta}
    {scalars : Fin SHARD_COUNT → List ScalarMeta} {store : Store StoreKey Metadata SlotPtr}
    (h : history.Reached n logs scalars store) :
    ∃ logs' scalars' store', history.Reached (n + 1) logs' scalars' store'
      ∧ store.entries <+: store'.entries ∧ history.issued n <+: history.issued (n + 1) := by
  by_cases hn : n < history.accesses.length
  · -- one more critical section has run
    have hchecked := history.checked _ (List.getElem_mem hn)
    have hstate := history.state_succ hn
    cases haccess : history.accesses[n] with
    | registration op =>
      rw [haccess] at hchecked hstate
      obtain ⟨handle, r', logs', scalars', store', hok, hof, hrep, hstep, -⟩ :=
        h.represents.issue hchecked.accepted
      rw [Access.perform, show (history.state n).2 = history.registry n from rfl, hok] at hstate
      have hregistry : history.registry (n + 1) = r' := by rw [registry, hstate]
      have hissued : history.issued (n + 1) = history.issued n ++ [(op, handle)] := by
        rw [issued, hstate, issued]
      refine ⟨logs', scalars', store', ⟨hregistry ▸ hrep, ?_, ?_, ?_⟩, hstep.grows,
        hissued ▸ List.prefix_append _ _⟩
      · rw [hissued, List.map_append, List.map_singleton]
        exact h.runs.snoc hstep
      · intro issued hmem
        rw [hissued] at hmem
        rcases List.mem_append.mp hmem with hmem | hmem
        · exact h.checked issued hmem
        · rw [List.mem_singleton.mp hmem]
          exact hchecked
      · intro issued hmem
        rw [hissued] at hmem
        rcases List.mem_append.mp hmem with hmem | hmem
        · exact h.handles issued hmem
        · rw [List.mem_singleton.mp hmem]
          exact hof
    | record_state name key value =>
      rw [haccess, Access.perform] at hstate
      have hregistry : history.registry (n + 1) = (history.registry n).record_state .Rpc name key value := by
        rw [registry, hstate, registry]
      have hissued : history.issued (n + 1) = history.issued n := by rw [issued, hstate, issued]
      refine ⟨logs, scalars, store, ⟨?_, ?_, ?_, ?_⟩, List.prefix_rfl, hissued ▸ List.prefix_rfl⟩
      · rw [hregistry]
        exact h.represents.with_states _
      · rw [hissued]; exact h.runs
      · rw [hissued]; exact h.checked
      · rw [hissued]; exact h.handles
  · -- the history is over
    have hstate := history.state_of_length_le (Nat.le_of_not_lt hn)
    have hregistry : history.registry (n + 1) = history.registry n := by rw [registry, hstate, registry]
    have hissued : history.issued (n + 1) = history.issued n := by rw [issued, hstate, issued]
    exact ⟨logs, scalars, store,
      ⟨hregistry ▸ h.represents, hissued ▸ h.runs, hissued ▸ h.checked, hissued ▸ h.handles⟩,
      List.prefix_rfl, hissued ▸ List.prefix_rfl⟩

/-- Every point of a history is reached. -/
theorem History.reached (history : History) (n : ℕ) :
    ∃ logs scalars store, history.Reached n logs scalars store := by
  induction n with
  | zero =>
    exact ⟨_, _, _, represents_new history.shard_hasher history.scalar_hasher, .nil _,
      fun h hmem => absurd hmem List.not_mem_nil, fun h hmem => absurd hmem List.not_mem_nil⟩
  | succ n ih =>
    obtain ⟨logs, scalars, store, h⟩ := ih
    obtain ⟨logs', scalars', store', h', -, -⟩ := h.succ
    exact ⟨logs', scalars', store', h'⟩

/-! ## Handles of one slot -/

namespace History

variable (history : History)

/-- Handles are never taken back. -/
theorem issued_prefix {m n : ℕ} (h : m ≤ n) : history.issued m <+: history.issued n := by
  induction n, h using Nat.le_induction with
  | base => exact List.prefix_rfl
  | succ n _ ih =>
    obtain ⟨logs, scalars, store, hreached⟩ := history.reached n
    obtain ⟨-, -, -, -, -, hgrows⟩ := hreached.succ
    exact ih.trans hgrows

/-- The registration `op` has returned `handle`. -/
def Returned (op : Registration) (handle : Handle) : Prop := ∃ n, (op, handle) ∈ history.issued n

variable {history} {op op' : Registration} {handle handle' : Handle}

/-- What a registration returns is a handle of its key. -/
theorem Returned.of_key (h : history.Returned op handle) : Handle.Of op.key handle := by
  obtain ⟨n, hmem⟩ := h
  obtain ⟨logs, scalars, store, hreached⟩ := history.reached n
  exact hreached.handles _ hmem

/-- Two handles share their slot exactly when they were returned for one key. -/
theorem Returned.slot_eq_iff (h : history.Returned op handle) (h' : history.Returned op' handle') :
    handle.slot = handle'.slot ↔ op.key = op'.key := by
  obtain ⟨m, hm⟩ := h
  obtain ⟨n, hn⟩ := h'
  obtain ⟨logs, scalars, store, hreached⟩ := history.reached (max m n)
  have hm' := List.mem_map_of_mem (f := Issued.entry)
    ((history.issued_prefix (le_max_left m n)).mem hm)
  have hn' := List.mem_map_of_mem (f := Issued.entry)
    ((history.issued_prefix (le_max_right m n)).mem hn)
  exact hreached.runs.slot_eq_iff hm' hn'

/-- All handles of a timing slot carry the policy of its key. -/
theorem Returned.policy_eq {m m' : Metric} (h : history.Returned op (.metric m))
    (h' : history.Returned op' (.metric m')) (hitem : m.item = m'.item) : m.policy = m'.policy := by
  have hkey := (h.slot_eq_iff h').mp (congrArg SlotPtr.timing hitem)
  have hof := h.of_key
  rw [hkey] at hof
  have hof' := h'.of_key
  generalize op'.key = key at hof hof'
  cases hof
  cases hof'
  rfl

end History

end BrzMetrics
