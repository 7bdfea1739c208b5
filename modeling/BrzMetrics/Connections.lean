/-
Connections and their guards.

A connection increments the gauge of its metric, then the counter, and when its
guard is dropped it decrements the gauge. `Traffic` is any number of connections
on any metrics of a history, each as far as it has come. How far decides what it
has contributed, so the gauge and the counter of an identity count the
connections of that identity by their phase (`Traffic.gauge_toNat`,
`Traffic.counter_toNat`), through whichever handle they were made.
-/
import BrzMetrics.ScalarCalls

set_option autoImplicit false

namespace BrzMetrics

open Interleave

/-! ## Identities -/

/-- What a connection metric is about. -/
inductive ConnIdentity where
  | named (kind : MetricType) (name : String)
  | resource (kind : MetricType) (labels : ResourceLabels)
deriving DecidableEq, Repr

namespace ConnIdentity

/-- The registration of the gauge. -/
def gauge : ConnIdentity → Registration
  | .named kind name => .scalar_register kind .Gauge name
  | .resource kind labels => .scalar_register_resource kind .Gauge labels

/-- The registration of the counter. -/
def counter : ConnIdentity → Registration
  | .named kind name => .scalar_register kind .Counter name
  | .resource kind labels => .scalar_register_resource kind .Counter labels

theorem gauge_key_inj {a b : ConnIdentity} (h : a.gauge.key = b.gauge.key) : a = b := by
  cases a <;> cases b <;> simp [gauge, Registration.key] at h <;> simp [h]

theorem counter_key_inj {a b : ConnIdentity} (h : a.counter.key = b.counter.key) : a = b := by
  cases a <;> cases b <;> simp [counter, Registration.key] at h <;> simp [h]

end ConnIdentity

/-- The history has returned the two handles of a connection metric. -/
structure History.Connects (history : History) (identity : ConnIdentity) (conn : ConnMetric) :
    Prop where
  current : history.Returned identity.gauge (.gauge conn.current)
  total : history.Returned identity.counter (.counter conn.total)

section Slots

variable {history : History} {a b : ConnIdentity} {conn conn' : ConnMetric}

/-- Metrics share their gauge exactly when they have one identity. -/
theorem History.Connects.current_iff (h : history.Connects a conn) (h' : history.Connects b conn') :
    conn.current.item = conn'.current.item ↔ a = b := by
  have hslot := h.current.slot_eq_iff h'.current
  constructor
  · exact fun heq => ConnIdentity.gauge_key_inj (hslot.mp (congrArg SlotPtr.scalar heq))
  · rintro rfl
    exact SlotPtr.scalar.inj (hslot.mpr rfl)

/-- Metrics share their counter exactly when they have one identity. -/
theorem History.Connects.total_iff (h : history.Connects a conn) (h' : history.Connects b conn') :
    conn.total.item = conn'.total.item ↔ a = b := by
  have hslot := h.total.slot_eq_iff h'.total
  constructor
  · exact fun heq => ConnIdentity.counter_key_inj (hslot.mp (congrArg SlotPtr.scalar heq))
  · rintro rfl
    exact SlotPtr.scalar.inj (hslot.mpr rfl)

/-- A counter is never a gauge. -/
theorem History.Connects.total_ne_current (h : history.Connects a conn)
    (h' : history.Connects b conn') : conn.total.item ≠ conn'.current.item :=
  History.counter_ne_gauge h.total h'.current

end Slots

/-! ## Traffic -/

/-- `connection()`, and the drop of its guard. -/
def ConnMetric.connection (self : ConnMetric) : List FetchAdd := self.connected ++ self.disconnected

/-- Connections on the metrics of a history, and the atomic operations that have run of them so
far. A guard is dropped at most once, and only after its `connection()` has returned. -/
structure Traffic (history : History) where
  connections : List (ConnIdentity × ConnMetric)
  steps : List (Fin connections.length × FetchAdd)
  metrics : ∀ c ∈ connections, history.Connects c.1 c.2
  running : Concurrent (fun i => (connections[i]).2.connection) steps

namespace Traffic

variable {history : History} (self : Traffic history)

/-- Memory after the operations that have run. -/
def memory : Memory := state (self.steps.map Prod.snd) self.steps.length

/-- How many operations of a connection have run. -/
def phase (i : Fin self.connections.length) : ℕ := (progress self.steps i).length

/-- The connections of an identity in some of the phases. -/
def count (identity : ConnIdentity) (phases : ℕ → Bool) : ℕ :=
  (Finset.univ.filter (fun i : Fin self.connections.length =>
    (self.connections[i]).1 = identity ∧ phases (self.phase i))).card

/-- Connections whose gauge increment is done. -/
def incremented (identity : ConnIdentity) : ℕ := self.count identity (fun p => 1 ≤ p)

/-- Connections between their two increments. -/
def connecting (identity : ConnIdentity) : ℕ := self.count identity (fun p => p = 1)

/-- Guards that have been created. -/
def created (identity : ConnIdentity) : ℕ := self.count identity (fun p => 2 ≤ p)

/-- Guards that have been created and not dropped. -/
def live (identity : ConnIdentity) : ℕ := self.count identity (fun p => p = 2)

/-- Guards that have been dropped. -/
def dropped (identity : ConnIdentity) : ℕ := self.count identity (fun p => p = 3)

/-- A connection has run its operations up to its phase. -/
theorem progress_eq (i : Fin self.connections.length) :
    progress self.steps i = (self.connections[i]).2.connection.take (self.phase i)
      ∧ self.phase i ≤ 3 := by
  have hprefix := self.running i
  exact ⟨List.prefix_iff_eq_take.mp hprefix, hprefix.length_le⟩

/-- What the first operations of a connection add to a scalar. A decrement adds `2 ^ 64 - 1`. -/
theorem added_take (conn : ConnMetric) {p : ℕ} (h : p ≤ 3) (item : ScalarPtr) :
    added (conn.connection.take p) (.scalar item)
      = (if conn.current.item = item then
          (if 1 ≤ p then 1 else 0) + (if p = 3 then 2 ^ 64 - 1 else 0) else 0)
        + (if conn.total.item = item then (if 2 ≤ p then 1 else 0) else 0) := by
  have hinc : (1 : Int64).toUInt64.toNat = 1 := by decide
  have hdec : (-1 : Int64).toUInt64.toNat = 2 ^ 64 - 1 := by decide
  have hops : conn.connection = [⟨.scalar conn.current.item, (1 : Int64).toUInt64⟩,
      ⟨.scalar conn.total.item, 1⟩, ⟨.scalar conn.current.item, (-1 : Int64).toUInt64⟩] := rfl
  rw [hops]
  interval_cases p <;> by_cases hcurrent : conn.current.item = item <;>
    by_cases htotal : conn.total.item = item <;>
    simp only [added, List.take_zero, List.take_succ_cons, List.take_nil, List.map_nil,
      List.map_cons, List.sum_nil, List.sum_cons, Atomic.scalar.injEq, hinc, hdec, hcurrent,
      htotal, if_true, if_false] <;> rfl

/-- Summing over the connections of an identity counts those in a phase. -/
theorem sum_phases (identity : ConnIdentity) (phases : ℕ → Bool) :
    (∑ i : Fin self.connections.length,
      if (self.connections[i]).1 = identity then (if phases (self.phase i) then 1 else 0) else 0)
      = self.count identity phases := by
  have hboth : ∀ i : Fin self.connections.length,
      (if (self.connections[i]).1 = identity then (if phases (self.phase i) then 1 else 0) else 0)
        = if (self.connections[i]).1 = identity ∧ phases (self.phase i) then 1 else 0 := by
    intro i
    split_ifs <;> simp_all
  rw [Finset.sum_congr rfl (fun i _ => hboth i), Finset.sum_boole]
  rfl

variable {self} {identity : ConnIdentity} {conn : ConnMetric}

/-- The gauge of an identity has been incremented by every connection and decremented by every drop
of that identity. -/
theorem gauge_added (h : history.Connects identity conn) :
    added (self.steps.map Prod.snd) (.scalar conn.current.item)
      = self.incremented identity + (2 ^ 64 - 1) * self.dropped identity := by
  have hcall : ∀ i : Fin self.connections.length,
      added (progress self.steps i) (.scalar conn.current.item)
        = (if (self.connections[i]).1 = identity then
            (if decide (1 ≤ self.phase i) then 1 else 0) else 0)
          + (2 ^ 64 - 1) * (if (self.connections[i]).1 = identity then
            (if decide (self.phase i = 3) then 1 else 0) else 0) := by
    intro i
    have hmetric : history.Connects (self.connections[i]).1 (self.connections[i]).2 :=
      self.metrics _ (List.getElem_mem i.isLt)
    obtain ⟨hprogress, hphase⟩ := self.progress_eq i
    rw [hprogress, added_take _ hphase, if_neg (hmetric.total_ne_current h)]
    simp only [hmetric.current_iff h, decide_eq_true_eq]
    split_ifs <;> simp
  rw [added_progress, Finset.sum_congr rfl (fun i _ => hcall i), Finset.sum_add_distrib, ← Finset.mul_sum,
    self.sum_phases identity (fun p => 1 ≤ p), self.sum_phases identity (fun p => p = 3)]
  rfl

/-- The counter of an identity counts its guards. -/
theorem counter_added (h : history.Connects identity conn) :
    added (self.steps.map Prod.snd) (.scalar conn.total.item) = self.created identity := by
  have hcall : ∀ i : Fin self.connections.length,
      added (progress self.steps i) (.scalar conn.total.item)
        = if (self.connections[i]).1 = identity then
            (if decide (2 ≤ self.phase i) then 1 else 0) else 0 := by
    intro i
    have hmetric : history.Connects (self.connections[i]).1 (self.connections[i]).2 :=
      self.metrics _ (List.getElem_mem i.isLt)
    obtain ⟨hprogress, hphase⟩ := self.progress_eq i
    rw [hprogress, added_take _ hphase, if_neg (h.total_ne_current hmetric).symm]
    simp only [hmetric.total_iff h, decide_eq_true_eq, zero_add]
  rw [added_progress, Finset.sum_congr rfl (fun i _ => hcall i), self.sum_phases identity (fun p => 2 ≤ p)]
  rfl

variable (self identity)

/-- Counting phases apart and together. -/
theorem count_add {phases phases' : ℕ → Bool} (h : ∀ p, ¬ (phases p = true ∧ phases' p = true)) :
    self.count identity (fun p => phases p || phases' p)
      = self.count identity phases + self.count identity phases' := by
  rw [← sum_phases, ← sum_phases, ← sum_phases, ← Finset.sum_add_distrib]
  refine Finset.sum_congr rfl (fun i _ => ?_)
  have := h (self.phase i)
  cases h₁ : phases (self.phase i) <;> cases h₂ : phases' (self.phase i) <;>
    split_ifs <;> simp_all

/-- A connection that has incremented its gauge is connecting, or its guard is live or dropped. -/
theorem incremented_eq :
    self.incremented identity = self.connecting identity + self.created identity
      ∧ self.created identity = self.live identity + self.dropped identity := by
  have hcongr : ∀ phases phases' : ℕ → Bool, (∀ p ≤ 3, phases p = phases' p) →
      self.count identity phases = self.count identity phases' := by
    intro phases phases' h
    rw [← sum_phases, ← sum_phases]
    refine Finset.sum_congr rfl (fun i _ => ?_)
    rw [h _ (self.progress_eq i).2]
  constructor
  · refine Eq.trans (hcongr _ _ ?_) (self.count_add identity (fun p => ?_))
    · intro p hp
      interval_cases p <;> rfl
    · simp only [decide_eq_true_eq]
      omega
  · refine Eq.trans (hcongr _ _ ?_) (self.count_add identity (fun p => ?_))
    · intro p hp
      interval_cases p <;> rfl
    · simp only [decide_eq_true_eq]
      omega

/-- No identity has more connections than there are. -/
theorem incremented_le : self.incremented identity ≤ self.connections.length := by
  rw [incremented, count]
  exact (Finset.card_le_univ _).trans_eq (Fintype.card_fin _)

end Traffic

/-- Connections balance, however the calls of any number of handles overlap. At every point the
gauge of an identity is the number of increments less the number of dropped guards, and is not
negative; with the dropped guards it exceeds the counter by the connections between their two
increments; so when there are none, the gauge is the number of live guards and the counter the
number of guards ever created for this identity. -/
theorem History.connections_balance (history : History) (t : Traffic history)
    (identity : ConnIdentity) (conn : ConnMetric) (hconn : history.Connects identity conn)
    (hfew : t.connections.length < 2 ^ 63) :
    let current := (conn.current.get t.memory).toInt
    let total : ℤ := (conn.total.get t.memory).toNat
    current = (t.incremented identity : ℤ) - t.dropped identity ∧ 0 ≤ current
    ∧ current + t.dropped identity - total = t.connecting identity
    ∧ (t.connecting identity = 0 →
        current = t.live identity ∧ total = t.created identity) := by
  have hbits : ∀ atomic, (t.memory atomic).toNat
      = added (t.steps.map Prod.snd) atomic % 2 ^ 64 := by
    intro atomic
    rw [Traffic.memory, state_toNat, List.take_of_length_le (by simp)]
  have hgauge := hbits (.scalar conn.current.item)
  have hcounter := hbits (.scalar conn.total.item)
  rw [Traffic.gauge_added hconn] at hgauge
  rw [Traffic.counter_added hconn] at hcounter
  obtain ⟨hincremented, hcreated⟩ := t.incremented_eq identity
  have hle := t.incremented_le identity
  obtain ⟨hlo, hhi, hget, -⟩ := conn.current.get_spec t.memory
  -- every decrement takes one increment back
  have hwrap : t.incremented identity + (2 ^ 64 - 1) * t.dropped identity
      = (t.incremented identity - t.dropped identity) + 2 ^ 64 * t.dropped identity := by
    omega
  rw [hwrap, Nat.add_mul_mod_self_left, Nat.mod_eq_of_lt (by omega)] at hgauge
  have htotal : (conn.total.get t.memory).toNat = t.created identity := by
    rw [CounterMetric.get, ScalarPtr.read, hcounter, Nat.mod_eq_of_lt (by omega)]
  dsimp only
  rw [htotal]
  omega

/-- A process that keeps one connection metric. -/
def caching : History :=
  History.sequential ⟨fun _ => 0⟩ ⟨fun _ => 0⟩ [.conn_new (.Redis .Conn) "cache"]

/-- Its metric. -/
def cache : ConnMetric where
  current := ⟨⟨⟨0, SHARD_COUNT_pos⟩, 0, 0⟩⟩
  total := ⟨⟨⟨0, SHARD_COUNT_pos⟩, 0, 1⟩⟩

theorem cache_connects : caching.Connects (.named (.Redis .Conn) "cache") cache :=
  ⟨⟨2, List.mem_cons_self⟩, ⟨2, List.mem_cons_of_mem _ List.mem_cons_self⟩⟩

/-- Two connections: the first is between its increments, the guard of the second is live. -/
def cache_traffic : Traffic caching where
  connections := List.replicate 2 (.named (.Redis .Conn) "cache", cache)
  steps := [(⟨0, by decide⟩, ⟨.scalar cache.current.item, (1 : Int64).toUInt64⟩),
    (⟨1, by decide⟩, ⟨.scalar cache.current.item, (1 : Int64).toUInt64⟩),
    (⟨1, by decide⟩, ⟨.scalar cache.total.item, 1⟩)]
  metrics := fun c hc => by rw [List.eq_of_mem_replicate hc]; exact cache_connects
  running := by decide

/-- The gauge is two, although only one connection has been counted. -/
theorem cache_balance : (cache.current.get cache_traffic.memory).toInt = 2 :=
  (History.connections_balance caching cache_traffic _ cache cache_connects (by decide)).1

end BrzMetrics
