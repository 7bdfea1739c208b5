/-
Calls whose panics are caught.

A constructor checks its arguments before it enters a shard, and `ConnMetric`
before the first of its two registrations. So a call that panics is as if it had
not been made (`attempts_filter`): no shard has changed and no mutex is
poisoned. Calls that are not rejected never panic, whatever was called before
(`Represents.run_call`), and what the checks let through is all that is ever
stored.
-/
import BrzMetrics.History

set_option autoImplicit false

namespace BrzMetrics

open KeyedStore

/-! ## Invalid calls -/

/-- The kind's response code, if it has one, is a status code. -/
def MetricType.InRange (self : MetricType) : Prop :=
  ∀ code, self = .Api code → 100 ≤ code.toNat ∧ code.toNat ≤ 599

/-- The kind whose slots a call registers. -/
def PublicCall.kind : PublicCall → Option MetricType
  | .metric_new kind _ | .metric_new_resource kind _ | .counter_new kind _
  | .counter_new_resource kind _ | .gauge_new kind _ | .gauge_new_resource kind _
  | .conn_new kind _ | .conn_new_resource kind _ => some kind
  | .log _ => some .Log
  | .redis _ => some (.Redis .Req)
  | .mysql _ => some (.Mysql .Req)
  | .mc _ => some (.Memcache .Req)
  | .mc_detail _ => some .McDetail
  | .http _ => some (.Http .Req)
  | .http_all _ => some .HttpAll
  | .api _ => some .ApiAll
  | .api_status _ status_code => some (.Api status_code)
  | .api_3xx _ => some .Api3xx
  | .api_4xx _ => some .Api4xx
  | .api_5xx _ => some .Api5xx
  | .api_timeout _ => some .ApiTimeout
  | .service _ => some (.Service .Req)
  | .rpc_service_whole _ => some .RpcServiceWhole
  | .register_profile _ | .record_rpc_state _ _ _ => none

/-- What makes a call invalid: a code that is no status code, a connection kind for a timing
metric, or another kind for a connection metric. -/
inductive PublicCall.Invalid : PublicCall → Prop where
  | code {call : PublicCall} {code : UInt16} (hkind : call.kind = some (.Api code))
      (hcode : ¬ (100 ≤ code.toNat ∧ code.toNat ≤ 599)) : call.Invalid
  | timing {kind : MetricType} (name : String) (hconn : kind.is_conn = true) :
      Invalid (.metric_new kind name)
  | timing_resource {kind : MetricType} (labels : ResourceLabels) (hconn : kind.is_conn = true) :
      Invalid (.metric_new_resource kind labels)
  | connection {kind : MetricType} (name : String) (hconn : kind.is_conn = false) :
      Invalid (.conn_new kind name)
  | connection_resource {kind : MetricType} (labels : ResourceLabels)
      (hconn : kind.is_conn = false) : Invalid (.conn_new_resource kind labels)

/-- A kind is refused for its code only. -/
theorem MetricType.inRange_iff {kind : MetricType} : kind.InRange ↔ kind.rejection = none := by
  constructor
  · intro h
    cases kind with
    | Api code =>
      obtain ⟨hlo, hhi⟩ := h code rfl
      simp [rejection, validate, valid_code, hlo, hhi]
    | _ => rfl
  · rintro h code rfl
    simpa [valid_code] using MetricType.valid_of_rejection h

/-- A kind that is refused has a code that is no status code. -/
theorem MetricType.rejected_iff {kind : MetricType} : kind.rejection ≠ none
    ↔ ∃ code, kind = .Api code ∧ ¬ (100 ≤ code.toNat ∧ code.toNat ≤ 599) := by
  rw [ne_eq, ← inRange_iff, InRange]
  constructor
  · intro h
    push Not at h
    obtain ⟨code, hkind, hcode⟩ := h
    exact ⟨code, hkind, fun hin => absurd hin.2 (Nat.not_le.mpr (hcode hin.1))⟩
  · rintro ⟨code, hkind, hcode⟩ h
    exact hcode (h code hkind)

/-- Of two checks, one after the other, one fails. -/
theorem or_check_ne_none (first : Option String) (check : Bool) (message : String) :
    first.or (if check then some message else none) ≠ none ↔ first ≠ none ∨ check = true := by
  cases first <;> cases check <;> simp

/-- The constructors refuse what is invalid. -/
theorem PublicCall.Invalid.rejected {call : PublicCall} (h : call.Invalid) :
    call.rejection ≠ none := by
  cases h with
  | code hkind hbad =>
    have hcode : ∀ {kind : MetricType}, some kind = some (.Api _) → kind.rejection ≠ none :=
      fun hkind => MetricType.rejected_iff.mpr ⟨_, Option.some.inj hkind, hbad⟩
    cases call with
    | metric_new kind _ | metric_new_resource kind _ =>
      exact (or_check_ne_none _ _ _).mpr (.inl (hcode hkind))
    | counter_new kind _ | counter_new_resource kind _ | gauge_new kind _
    | gauge_new_resource kind _ | api_status _ _ => exact hcode hkind
    | conn_new kind _ | conn_new_resource kind _ =>
      -- a response code is no connection kind, whether it is in range or not
      obtain rfl := Option.some.inj hkind
      simp [rejection, MetricType.is_conn]
    | _ => simp [kind] at hkind
  | timing name hconn | timing_resource labels hconn =>
    exact (or_check_ne_none _ _ _).mpr (.inr hconn)
  | connection name hconn | connection_resource labels hconn => simp [rejection, hconn]

/-- The constructors refuse nothing else. -/
theorem PublicCall.invalid_of_rejection {call : PublicCall} (h : call.rejection ≠ none) :
    call.Invalid := by
  have hconn : ∀ {c : Bool} {message : String},
      (if c then none else some message) ≠ (none : Option String) → c = false := by
    intro c message
    cases c <;> simp
  cases call with
  | metric_new kind name =>
    rcases (or_check_ne_none _ _ _).mp h with h | h
    · obtain ⟨code, rfl, hbad⟩ := MetricType.rejected_iff.mp h
      exact .code rfl hbad
    · exact .timing name h
  | metric_new_resource kind labels =>
    rcases (or_check_ne_none _ _ _).mp h with h | h
    · obtain ⟨code, rfl, hbad⟩ := MetricType.rejected_iff.mp h
      exact .code rfl hbad
    · exact .timing_resource labels h
  | counter_new kind _ | counter_new_resource kind _ | gauge_new kind _
  | gauge_new_resource kind _ =>
    obtain ⟨code, rfl, hbad⟩ := MetricType.rejected_iff.mp h
    exact .code rfl hbad
  | api_status _ status_code =>
    obtain ⟨code, hkind, hbad⟩ := MetricType.rejected_iff.mp h
    exact .code (congrArg some hkind) hbad
  | conn_new kind name => exact .connection name (hconn h)
  | conn_new_resource kind labels => exact .connection_resource labels (hconn h)
  | _ =>
    -- no other constructor checks anything
    exact absurd rfl h

/-- The checks of the constructors find exactly the invalid calls. -/
theorem PublicCall.invalid_iff (call : PublicCall) : call.Invalid ↔ call.rejection ≠ none :=
  ⟨Invalid.rejected, invalid_of_rejection⟩

instance : DecidablePred PublicCall.Invalid :=
  fun call => decidable_of_iff (call.rejection ≠ none) call.invalid_iff.symm

/-! ## Running calls -/

/-- Calls one after the other, with their panics caught. -/
def attempts : List PublicCall → Registry → List (Except String (List Handle)) × Registry
  | [], r => ([], r)
  | call :: calls, r =>
    match call.run r with
    | .ok handles after =>
      let (outcomes, last) := attempts calls after
      (.ok handles :: outcomes, last)
    | .error message after =>
      let (outcomes, last) := attempts calls after
      (.error message :: outcomes, last)

/-- What critical sections do to a registry does not depend on the handles issued before. -/
theorem perform_registry (accesses : List Access) (issued issued' : List Issued) (r : Registry) :
    (accesses.foldl Access.perform (issued, r)).2 = (accesses.foldl Access.perform (issued', r)).2 := by
  induction accesses generalizing issued issued' r with
  | nil => rfl
  | cons access accesses ih =>
    cases access with
    | registration op =>
      rw [List.foldl_cons, List.foldl_cons, Access.perform, Access.perform]
      cases op.issue r <;> exact ih _ _ _
    | record_state name key value => exact ih _ _ _

section Runs

variable {r : Registry} {logs : Fin SHARD_COUNT → List MetricMeta}
  {scalars : Fin SHARD_COUNT → List ScalarMeta} {store : Store StoreKey Metadata SlotPtr}

/-- Checked critical sections run through. -/
theorem Represents.run_all (h : Represents r logs scalars store) (accesses : List Access)
    (hchecked : ∀ access ∈ accesses, access.Checked) :
    ∃ handles logs' scalars' store',
      Access.run_all accesses r = .ok handles (accesses.foldl Access.perform ([], r)).2
      ∧ Represents (accesses.foldl Access.perform ([], r)).2 logs' scalars' store' := by
  induction accesses generalizing r logs scalars store with
  | nil => exact ⟨[], logs, scalars, store, rfl, h⟩
  | cons access accesses ih =>
    have hrest := fun a ha => hchecked a (List.mem_cons_of_mem _ ha)
    cases access with
    | registration op =>
      obtain ⟨handle, r', logs', scalars', store', hok, -, hrep, -, -⟩ :=
        h.issue (hchecked _ List.mem_cons_self).accepted
      obtain ⟨handles, logs'', scalars'', store'', hrun, hrep'⟩ := ih hrep hrest
      have hperform : Access.perform ([], r) (.registration op) = ([(op, handle)], r') := by
        rw [Access.perform, hok]
        rfl
      -- the handles issued so far are not read again
      rw [List.foldl_cons, hperform, perform_registry accesses _ []]
      refine ⟨handle :: handles, logs'', scalars'', store'', ?_, hrep'⟩
      simp only [Access.run_all, Access.run, bind, EStateM.bind, hok, pure, EStateM.pure, hrun]
      rfl
    | record_state name key value =>
      -- a state is recorded beside the registries
      have hrep : Represents (r.record_state .Rpc name key value) logs scalars store :=
        h.with_states _
      obtain ⟨handles, logs'', scalars'', store'', hrun, hrep'⟩ := ih hrep hrest
      refine ⟨handles, logs'', scalars'', store'', ?_, hrep'⟩
      have hstep : Access.run_all (.record_state name key value :: accesses) r
          = (Access.run_all accesses >>= fun rest => return [] ++ rest)
              (r.record_state .Rpc name key value) := rfl
      simp only [hstep, bind, EStateM.bind, hrun]
      rfl

/-- A call panics and has changed nothing, or returns its handles. -/
theorem Represents.run_call (h : Represents r logs scalars store) (call : PublicCall) :
    (call.Invalid ∧ ∃ message, call.run r = .error message r)
      ∨ (¬ call.Invalid ∧ ∃ handles logs' scalars' store',
          call.run r = .ok handles (call.accesses.foldl Access.perform ([], r)).2
          ∧ Represents (call.accesses.foldl Access.perform ([], r)).2 logs' scalars' store') := by
  have hrun := congrFun call.run_eq r
  rw [PublicCall.invalid_iff]
  cases hrejection : call.rejection with
  | some message =>
    rw [hrejection] at hrun
    exact .inl ⟨by simp, message, hrun⟩
  | none =>
    have hsections : call.accesses = call.sections := by
      rw [PublicCall.accesses, if_pos hrejection]
    rw [hrejection] at hrun
    obtain ⟨handles, logs', scalars', store', hall, hrep⟩ := h.run_all call.accesses call.checked
    exact .inr ⟨by simp, handles, logs', scalars', store', (hrun.trans (hsections ▸ hall)), hrep⟩

/-- Calls do to a registry what their critical sections do. -/
theorem Represents.attempts_eq (h : Represents r logs scalars store) (calls : List PublicCall) :
    (attempts calls r).2
      = ((calls.map PublicCall.accesses).flatten.foldl Access.perform ([], r)).2 := by
  induction calls generalizing r logs scalars store with
  | nil => rfl
  | cons call calls ih =>
    rw [List.map_cons, List.flatten_cons, List.foldl_append]
    rcases h.run_call call with ⟨hinvalid, message, hrun⟩
      | ⟨-, handles, logs', scalars', store', hrun, hrep⟩
    · have hnone : call.accesses = [] := by
        rw [PublicCall.accesses, if_neg ((call.invalid_iff).mp hinvalid)]
      rw [attempts, hrun, hnone]
      exact ih h
    · rw [attempts, hrun]
      exact (ih hrep).trans (perform_registry _ _ _ _)

/-- Without its invalid calls a sequence does the same, and the other calls return the same. -/
theorem Represents.attempts_filter (h : Represents r logs scalars store) (calls : List PublicCall) :
    (attempts calls r).2 = (attempts (calls.filter (fun call => ¬ call.Invalid)) r).2
      ∧ (attempts calls r).1.filterMap Except.toOption
        = (attempts (calls.filter (fun call => ¬ call.Invalid)) r).1.filterMap Except.toOption := by
  induction calls generalizing r logs scalars store with
  | nil => exact ⟨rfl, rfl⟩
  | cons call calls ih =>
    rcases h.run_call call with ⟨hinvalid, message, hrun⟩
      | ⟨hvalid, handles, logs', scalars', store', hrun, hrep⟩
    · rw [List.filter_cons_of_neg (by simpa using hinvalid), attempts, hrun]
      exact ih h
    · obtain ⟨hlast, houtcomes⟩ := ih hrep
      rw [List.filter_cons_of_pos (by simpa using hvalid), attempts, attempts, hrun]
      exact ⟨hlast, congrArg (handles :: ·) houtcomes⟩

end Runs

/-- The kind that a timing entry was registered under. -/
def ProfileMeta.kind : ProfileMeta → Option MetricType
  | .Single _ kind | .Resource _ kind => some kind
  | .Fanout _ => none

/-- The kind in a key of the timing maps. -/
def TimingKey.kind : TimingKey → Option MetricType
  | .named _ kind | .resource kind _ => some kind
  | .profile _ _ => none

/-- The kind in a key of the scalar maps. -/
def ScalarKey.kind : ScalarKey → MetricType
  | .named kind _ _ | .resource kind _ _ => kind

theorem ProfileMeta.key_kind (self : ProfileMeta) : self.key.kind = self.kind := by
  cases self <;> rfl

theorem ScalarMeta.key_kind (self : ScalarMeta) : self.key.kind = self.kind := by
  rw [key]
  cases self.resource <;> rfl

/-- Rejected registrations leave no trace. After any calls, a further call panics exactly when it is
invalid, and then the registry is what it was, so that all later calls do and return what they would
without it; no mutex is ever poisoned, and no timing entry or key has a connection kind and no entry
or key anywhere a code that is no status code. -/
theorem Registry.rejections_leave_no_trace (shard_hasher : RandomState TimingKey)
    (scalar_hasher : RandomState ScalarKey) (calls : List PublicCall) :
    let new := Registry.new shard_hasher scalar_hasher
    let r := (attempts calls new).2
    (∀ call : PublicCall, ((∃ message after, call.run r = .error message after) ↔ call.Invalid)
      ∧ (call.Invalid → ∃ message, call.run r = .error message r
        ∧ ∀ later, attempts (call :: later) r
            = (.error message :: (attempts later r).1, (attempts later r).2)))
    ∧ (attempts (calls.filter (fun call => ¬ call.Invalid)) new).2 = r
    ∧ (attempts (calls.filter (fun call => ¬ call.Invalid)) new).1.filterMap Except.toOption
        = (attempts calls new).1.filterMap Except.toOption
    ∧ (∀ i, (r.shards i).poisoned = false ∧ (r.scalars.shards i).poisoned = false)
    ∧ (∃ timing scalars, r.for_each_meta = some timing ∧ r.scalars.for_each = some scalars
      ∧ (∀ m ∈ timing, ∀ kind, m.profile.kind = some kind → kind.is_conn = false ∧ kind.InRange)
      ∧ ∀ m ∈ scalars, m.kind.InRange)
    ∧ (∀ i key item, (r.shards i).find key = some item → ∀ kind, key.kind = some kind →
      kind.is_conn = false ∧ kind.InRange)
    ∧ ∀ i key item, (r.scalars.shards i).find key = some item → key.kind.InRange := by
  intro new r
  have hnew := represents_new shard_hasher scalar_hasher
  -- the calls are a history of one thread
  let history := History.sequential shard_hasher scalar_hasher calls
  have hregistry : history.registry history.accesses.length = r := by
    have heq := hnew.attempts_eq calls
    rw [History.registry, History.state, List.take_length]
    exact heq.symm
  obtain ⟨logs, scalars, store, hreached⟩ := history.reached history.accesses.length
  have hrep := hreached.represents
  rw [hregistry] at hrep
  have htiming : ∀ m ∈ flat logs, ∀ kind, m.profile.kind = some kind →
      kind.is_conn = false ∧ kind.InRange := by
    intro m hm kind hkind
    have hchecked := hreached.timing_checked m hm
    cases hprofile : m.profile with
    | Single _ _ | Resource _ _ =>
      rw [hprofile] at hchecked hkind
      obtain rfl := Option.some.inj hkind
      exact ⟨hchecked.2, MetricType.inRange_iff.mpr hchecked.1⟩
    | Fanout plan =>
      rw [hprofile] at hkind
      exact absurd hkind (by simp [ProfileMeta.kind])
  have hscalars : ∀ m ∈ flat scalars, m.kind.InRange :=
    fun m hm => MetricType.inRange_iff.mpr (hreached.scalar_checked m hm).kind
  refine ⟨fun call => ?_, ((hnew.attempts_filter calls).1).symm, ((hnew.attempts_filter calls).2).symm,
    fun i => ⟨(hrep.inv.shards i).healthy, (hrep.inv.scalars.shards i).healthy⟩,
    ⟨_, _, hrep.inv.for_each_meta, hrep.inv.scalars.for_each, htiming, hscalars⟩, ?_, ?_⟩
  · rcases hrep.run_call call with ⟨hinvalid, message, hrun⟩ | ⟨hvalid, handles, -, -, -, hrun, -⟩
    · refine ⟨iff_of_true ⟨message, r, hrun⟩ hinvalid, fun _ => ⟨message, hrun, fun later => ?_⟩⟩
      rw [attempts, hrun]
    · have hok : ¬ ∃ message after, call.run r = .error message after := by
        rintro ⟨message, after, herror⟩
        rw [hrun] at herror
        simp at herror
      exact ⟨iff_of_false hok hvalid, fun hinvalid => absurd hinvalid hvalid⟩
  · intro i key item hfind kind hkind
    obtain ⟨m, hm, hkey, -⟩ := ((hrep.inv.shards i).holds.find key item).mp hfind
    refine htiming m (mem_flat.mpr ⟨i, hm⟩) kind ?_
    rw [← m.profile.key_kind, hkey, hkind]
  · intro i key item hfind
    obtain ⟨m, hm, hkey, -⟩ := ((hrep.inv.scalars.shards i).holds.find key item).mp hfind
    have hkind := hscalars m (mem_flat.mpr ⟨i, hm⟩)
    rwa [← m.key_kind, hkey] at hkind

end BrzMetrics
