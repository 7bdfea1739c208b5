/-
What half-finished calls have contributed.

At any point of a recording every call has run a beginning of its operations, so
a bound on what a beginning adds (`added_prefix_le`, `slow_le_elapsed`) is a bound
on the counters: they are sums over the calls. The order of the updates in
`record` matters twice. The duration is added to the total before it is added to
the slow total, so the slow total never exceeds the total, whatever is in
progress. And the count comes last: a call that has counted is complete
(`HandleCall.complete_of_count`).

Where no operation is in progress every call has contributed all of its amounts
or nothing, and the bounds that hold for each call hold for the slot
(`History.slots_consistent`).
-/
import BrzMetrics.Recording

set_option autoImplicit false

namespace BrzMetrics

open Interleave

/-! ## Beginnings of a call -/

/-- A beginning adds no more than the whole. -/
theorem added_prefix_le {ops ops' : List FetchAdd} (h : ops <+: ops') (atomic : Atomic) :
    added ops atomic ≤ added ops' atomic := by
  obtain ⟨rest, rfl⟩ := h
  rw [added_append]
  exact Nat.le_add_right _ _

/-- Operations on other atomics add nothing. -/
theorem added_eq_zero {ops : List FetchAdd} {atomic : Atomic}
    (h : ∀ op ∈ ops, op.target ≠ atomic) : added ops atomic = 0 := by
  refine List.sum_eq_zero (fun x hx => ?_)
  obtain ⟨op, hop, rfl⟩ := List.mem_map.mp hx
  exact if_neg (h op hop)

/-- A record up to its update of the elapsed total. -/
def Metric.up_to_elapsed (self : Metric) (elapsed : Duration) (success : Bool) : List FetchAdd :=
  (if !success then
    [⟨.slot self.item .failure_count, 1⟩,
      ⟨.slot self.item .failure_elapsed_us, Metric.clamped_us elapsed⟩] else []) ++
  [⟨.slot self.item .elapsed_us, Metric.clamped_us elapsed⟩]

/-- A record from there up to its update of the count. -/
def Metric.slow_updates (self : Metric) (elapsed : Duration) : List FetchAdd :=
  if self.policy.spec.slow_threshold_us ≤ Metric.clamped_us elapsed then
    [⟨.slot self.item .slow_count, 1⟩, ⟨.slot self.item .slow_elapsed_us, Metric.clamped_us elapsed⟩]
  else []

theorem Metric.record_eq (self : Metric) (elapsed : Duration) (success : Bool) :
    self.record elapsed success
      = (self.up_to_elapsed elapsed success ++ self.slow_updates elapsed)
        ++ [⟨.slot self.item .count, 1⟩] := rfl

/-- The first updates of a record are of failures and of the elapsed total. -/
theorem Metric.target_of_up_to_elapsed {self : Metric} {elapsed : Duration} {success : Bool} :
    ∀ op ∈ self.up_to_elapsed elapsed success,
      ∃ field ∈ [SlotField.failure_count, .failure_elapsed_us, .elapsed_us],
        op.target = .slot self.item field := by
  intro op hop
  rcases List.mem_append.mp hop with hop | hop
  · split_ifs at hop
    · rcases List.mem_cons.mp hop with rfl | hop
      · exact ⟨.failure_count, by simp, rfl⟩
      · rw [List.mem_singleton.mp hop]
        exact ⟨.failure_elapsed_us, by simp, rfl⟩
    · exact absurd hop List.not_mem_nil
  · rw [List.mem_singleton.mp hop]
    exact ⟨.elapsed_us, by simp, rfl⟩

/-- The next updates are of slow operations. -/
theorem Metric.target_of_slow_updates {self : Metric} {elapsed : Duration} :
    ∀ op ∈ self.slow_updates elapsed, ∃ field ∈ [SlotField.slow_count, .slow_elapsed_us],
      op.target = .slot self.item field := by
  intro op hop
  unfold slow_updates at hop
  split_ifs at hop
  · rcases List.mem_cons.mp hop with rfl | hop
    · exact ⟨.slow_count, by simp, rfl⟩
    · rw [List.mem_singleton.mp hop]
      exact ⟨.slow_elapsed_us, by simp, rfl⟩
  · exact absurd hop List.not_mem_nil

namespace HandleCall

/-- Unfinished calls have contributed no more than their amounts. -/
theorem added_le_amount {call : HandleCall} {ops : List FetchAdd} (h : ops <+: call.ops)
    (atomic : Atomic) : added ops atomic ≤ call.amount atomic :=
  call.added_ops atomic ▸ added_prefix_le h atomic

/-- The count of a slot is updated by the last operation of a call. -/
theorem complete_of_count {call : HandleCall} {ops : List FetchAdd} (h : ops <+: call.ops)
    {item : ItemPtr} (hcount : ∃ op ∈ ops, op.target = .slot item .count) : ops = call.ops := by
  obtain ⟨op, hop, htarget⟩ := hcount
  cases call with
  | record metric elapsed success =>
    rw [HandleCall.ops, Metric.record_eq] at h ⊢
    rcases List.prefix_concat_iff.mp h with h | h
    · exact h
    · -- no update before the last one is of a count
      exfalso
      rcases List.mem_append.mp (h.mem hop) with hmem | hmem
      · obtain ⟨field, hfield, heq⟩ := Metric.target_of_up_to_elapsed op hmem
        obtain ⟨-, rfl⟩ := Atomic.slot.inj (heq.symm.trans htarget)
        exact absurd hfield (by decide)
      · obtain ⟨field, hfield, heq⟩ := Metric.target_of_slow_updates op hmem
        obtain ⟨-, rfl⟩ := Atomic.slot.inj (heq.symm.trans htarget)
        exact absurd hfield (by decide)
  | increment metric =>
    -- a call of one operation has run it or has not begun
    rcases List.prefix_cons_iff.mp h with rfl | ⟨rest, rfl, hrest⟩
    · exact absurd hop List.not_mem_nil
    · rw [List.prefix_nil.mp hrest]
      rfl
  | add counter value | inc counter =>
    rw [List.mem_singleton.mp (h.mem hop)] at htarget
    exact Atomic.noConfusion htarget

/-- A call only touches the slot of its handle. -/
theorem slot_of_target {call : HandleCall} {op : FetchAdd} (h : op ∈ call.ops) {item : ItemPtr}
    {field : SlotField} (htarget : op.target = .slot item field) :
    call.handle.slot = .timing item := by
  cases call with
  | record metric elapsed success =>
    -- every update of a record goes to the slot of its handle
    have hslot : ∃ field, op.target = .slot metric.item field := by
      rw [HandleCall.ops, Metric.record_eq] at h
      rcases List.mem_append.mp h with h | h
      · rcases List.mem_append.mp h with h | h
        · obtain ⟨field, -, heq⟩ := Metric.target_of_up_to_elapsed op h
          exact ⟨field, heq⟩
        · obtain ⟨field, -, heq⟩ := Metric.target_of_slow_updates op h
          exact ⟨field, heq⟩
      · exact ⟨.count, by rw [List.mem_singleton.mp h]⟩
    obtain ⟨field', heq⟩ := hslot
    exact congrArg SlotPtr.timing (Atomic.slot.inj (heq.symm.trans htarget)).1
  | increment metric =>
    rw [List.mem_singleton.mp h] at htarget
    exact congrArg SlotPtr.timing (Atomic.slot.inj htarget).1
  | add counter value | inc counter =>
    rw [List.mem_singleton.mp h] at htarget
    exact Atomic.noConfusion htarget

/-- At every point of a call its slow duration is at most its duration. -/
theorem slow_le_elapsed {call : HandleCall} {ops : List FetchAdd} (h : ops <+: call.ops)
    (item : ItemPtr) :
    added ops (.slot item .slow_elapsed_us) ≤ added ops (.slot item .elapsed_us) := by
  cases call with
  | record metric elapsed success =>
    by_cases hitem : metric.item = item
    · subst hitem
      have htotal := added_le_amount h (.slot metric.item .slow_elapsed_us)
      rw [HandleCall.ops, Metric.record_eq, List.append_assoc] at h
      rcases List.prefix_or_prefix_of_prefix h (List.prefix_append _ _) with hbefore | hafter
      · -- the slow total has not been touched
        rw [added_eq_zero (fun op hop heq => ?_)]
        · exact Nat.zero_le _
        · obtain ⟨field, hfield, htarget⟩ :=
            Metric.target_of_up_to_elapsed op (hbefore.mem hop)
          obtain ⟨-, rfl⟩ := Atomic.slot.inj (htarget.symm.trans heq)
          exact absurd hfield (by decide)
      · -- the elapsed total has
        have helapsed : clamped elapsed
            ≤ added (metric.up_to_elapsed elapsed success) (.slot metric.item .elapsed_us) := by
          rw [Metric.up_to_elapsed, added_append, added_singleton, if_pos rfl,
            Metric.clamped_us_toNat]
          exact Nat.le_add_left _ _
        have hslow : amount (.record metric elapsed success) (.slot metric.item .slow_elapsed_us)
            ≤ clamped elapsed := by
          rw [amount, if_pos rfl, recorded]
          split_ifs
          · exact le_rfl
          · exact Nat.zero_le _
        exact htotal.trans (hslow.trans (helapsed.trans (added_prefix_le hafter _)))
    · have hzero := added_le_amount h (.slot item .slow_elapsed_us)
      -- a record on another slot
      rw [amount, if_neg hitem] at hzero
      exact hzero.trans (Nat.zero_le _)
  | increment metric =>
    have hzero := added_le_amount h (.slot item .slow_elapsed_us)
    -- an increment has no duration
    rw [amount, if_neg (by simp)] at hzero
    exact hzero.trans (Nat.zero_le _)
  | add counter value | inc counter =>
    exact (added_le_amount h (.slot item .slow_elapsed_us)).trans (Nat.zero_le _)

end HandleCall

/-! ## Bounds between the counters -/

/-- The bounds between the counters of a slot with slow threshold `threshold`, of whose calls
`records` are records. -/
structure Settled (threshold records : ℕ) (value : SlotField → ℕ) : Prop where
  failures : value .failure_count ≤ value .count
  slow : value .slow_count ≤ value .count
  failed : value .failure_elapsed_us ≤ value .elapsed_us
  long : threshold * value .slow_count ≤ value .slow_elapsed_us
  recorded : value .slow_count ≤ records
  short : value .elapsed_us + (threshold - 1) * value .slow_count
    ≤ value .slow_elapsed_us + (threshold - 1) * records

/-- What has contributed nothing is within the bounds. -/
theorem settled_zero {threshold : ℕ} {value : SlotField → ℕ} (h : ∀ field, value field = 0) :
    Settled threshold 0 value := by
  constructor <;> simp [h]

/-- The bounds add up. -/
theorem Settled.sum {ι : Type} {threshold : ℕ} (s : Finset ι) {records : ι → ℕ}
    {value : ι → SlotField → ℕ} (h : ∀ i ∈ s, Settled threshold (records i) (value i)) :
    Settled threshold (∑ i ∈ s, records i) (fun field => ∑ i ∈ s, value i field) where
  failures := Finset.sum_le_sum (fun i hi => (h i hi).failures)
  slow := Finset.sum_le_sum (fun i hi => (h i hi).slow)
  failed := Finset.sum_le_sum (fun i hi => (h i hi).failed)
  long := by
    rw [Finset.mul_sum]
    exact Finset.sum_le_sum (fun i hi => (h i hi).long)
  recorded := Finset.sum_le_sum (fun i hi => (h i hi).recorded)
  short := by
    rw [Finset.mul_sum, Finset.mul_sum, ← Finset.sum_add_distrib, ← Finset.sum_add_distrib]
    exact Finset.sum_le_sum (fun i hi => (h i hi).short)

/-- A recorded operation is within the bounds of its policy. -/
theorem settled_recorded (policy : MetricPolicy) (elapsed : Duration) (success : Bool) :
    Settled policy.spec.slow_threshold_us.toNat 1 (HandleCall.recorded policy elapsed success) := by
  have hpos := policy.slow_threshold_le.1
  generalize hus : HandleCall.clamped elapsed = us
  -- a slow operation counts in all totals, a fast one in none of the slow ones
  by_cases hslow : policy.spec.slow_threshold_us.toNat ≤ us
  · constructor <;> cases success <;> simp [HandleCall.recorded, hus, hslow]
  · constructor <;> cases success <;> simp [HandleCall.recorded, hus, hslow] <;> omega

/-- Whether a call is a record on a slot that has returned. -/
def HandleCall.recorded_on (call : HandleCall) (item : ItemPtr) (ops : List FetchAdd) : Prop :=
  (call.operation item).isSome ∧ ops = call.ops

instance (call : HandleCall) (item : ItemPtr) (ops : List FetchAdd) :
    Decidable (call.recorded_on item ops) :=
  inferInstanceAs (Decidable (_ ∧ _))

/-- A call is within the bounds when it is not a record in progress. -/
theorem settled_call {call : HandleCall} {ops : List FetchAdd} (h : ops <+: call.ops)
    {item : ItemPtr} {threshold : ℕ}
    (hthreshold : ∀ metric : Metric, call.handle = .metric metric → metric.item = item →
      metric.policy.spec.slow_threshold_us.toNat = threshold)
    (hsettled : (call.operation item).isSome → ops = [] ∨ ops = call.ops) :
    Settled threshold (if call.recorded_on item ops then 1 else 0)
      (fun field => added ops (.slot item field)) := by
  by_cases hrecord : (call.operation item).isSome
  · cases call with
    | record metric elapsed success =>
      have hitem : metric.item = item := by
        by_contra hne
        simp [HandleCall.operation, hne] at hrecord
      -- the record has not begun, or it has returned
      rcases hsettled hrecord with rfl | rfl
      · rw [if_neg]
        · exact settled_zero (fun field => rfl)
        · rintro ⟨-, hops⟩
          simp [HandleCall.ops, Metric.record_eq] at hops
      · rw [if_pos ⟨hrecord, rfl⟩, ← hthreshold metric rfl hitem]
        have hadded : ∀ field, added (HandleCall.record metric elapsed success).ops
            (.slot item field) = HandleCall.recorded metric.policy elapsed success field :=
          fun field => by rw [HandleCall.added_ops, HandleCall.amount, if_pos hitem]
        simp only [hadded]
        exact settled_recorded metric.policy elapsed success
    | increment _ | add _ _ | inc _ => simp [HandleCall.operation] at hrecord
  · -- anything else touches no counter of the slot but the count
    have hzero : ∀ field, field ≠ .count → added ops (.slot item field) = 0 := by
      intro field hfield
      refine Nat.le_zero.mp ((HandleCall.added_le_amount h _).trans (Nat.le_zero.mpr ?_))
      cases call with
      | record metric elapsed success =>
        refine if_neg (fun hitem => hrecord ?_)
        simp [HandleCall.operation, hitem]
      | increment metric => exact if_neg (fun hboth => hfield hboth.2)
      | add _ _ | inc _ => rfl
    rw [if_neg (fun hboth => hrecord hboth.1)]
    constructor <;> simp [hzero]

/-- How many records on a slot have returned. -/
def Recording.records {history : History} (self : Recording history) (item : ItemPtr) : ℕ :=
  (Finset.univ.filter (fun i : Fin self.calls.length =>
    (self.calls.get i).recorded_on item (progress self.steps i))).card

/-- The counters of a slot stay consistent over whole runs. Every slot has one threshold, that of
every handle ever returned for it. At every point of every recording, if no counter has wrapped,
the slow duration is at most the duration; and where no record on the slot is in progress, there
are at most as many failed and slow operations as calls, failures last no longer than everything,
slow operations last at least the threshold each, they are at most as many as the records, and the
other records last less than it. -/
theorem History.slots_consistent (history : History) :
    ∃ threshold : ItemPtr → ℕ,
      (∀ op metric, history.Returned op (.metric metric) →
        metric.policy.spec.slow_threshold_us.toNat = threshold metric.item)
      ∧ ∀ (r : Recording history) (item : ItemPtr),
        (∀ field, added r.ops (.slot item field) ≤ U64_MAX) →
        let read := fun field => (r.now (.slot item field)).toNat
        read .slow_elapsed_us ≤ read .elapsed_us
        ∧ ((∀ i, ((r.calls.get i).operation item).isSome →
              progress r.steps i = [] ∨ progress r.steps i = (r.calls.get i).ops) →
            read .failure_count ≤ read .count ∧ read .slow_count ≤ read .count
            ∧ read .failure_elapsed_us ≤ read .elapsed_us
            ∧ threshold item * read .slow_count ≤ read .slow_elapsed_us
            ∧ read .slow_count ≤ r.records item
            ∧ read .elapsed_us - read .slow_elapsed_us
                ≤ (threshold item - 1) * (r.records item - read .slow_count)) := by
  classical
  -- handles on one slot agree on the policy, so the slot has one threshold; a slot without a
  -- handle may have any
  have hexists : ∀ item, ∃ threshold, ∀ op metric, history.Returned op (.metric metric) →
      metric.item = item → metric.policy.spec.slow_threshold_us.toNat = threshold := by
    intro item
    by_cases h : ∃ op metric, history.Returned op (.metric metric) ∧ metric.item = item
    · obtain ⟨op, metric, hreturned, hitem⟩ := h
      exact ⟨metric.policy.spec.slow_threshold_us.toNat, fun op' metric' hreturned' hitem' => by
        rw [hreturned'.policy_eq hreturned (hitem'.trans hitem.symm)]⟩
    · exact ⟨0, fun op metric hreturned hitem => absurd ⟨op, metric, hreturned, hitem⟩ h⟩
  choose threshold hthreshold using hexists
  refine ⟨threshold, fun op metric hreturned => hthreshold _ op metric hreturned rfl, ?_⟩
  intro r item hfits
  -- without a wrap a counter is the sum of what every call has added so far
  have hread : ∀ field, (r.now (.slot item field)).toNat
      = ∑ i, added (progress r.steps i) (.slot item field) := by
    intro field
    have := hfits field
    unfold U64_MAX at this
    rw [r.now_toNat, Nat.mod_eq_of_lt (by omega), r.added_eq]
  simp only [hread]
  refine ⟨Finset.sum_le_sum (fun i _ => HandleCall.slow_le_elapsed (r.running i) item),
    fun hquiet => ?_⟩
  -- the bounds hold of every call by itself, and add up
  have hcalls : ∀ i ∈ Finset.univ, Settled (threshold item)
      (if (r.calls.get i).recorded_on item (progress r.steps i) then 1 else 0)
      (fun field => added (progress r.steps i) (.slot item field)) := by
    intro i _
    refine settled_call (r.running i) (fun metric hhandle hitem => ?_) (hquiet i)
    obtain ⟨op, hop⟩ := r.returned _ (List.getElem_mem i.isLt)
    exact hthreshold item op metric (hhandle ▸ hop) hitem
  have hslot := Settled.sum Finset.univ hcalls
  rw [Finset.sum_boole, Nat.cast_id] at hslot
  refine ⟨hslot.failures, hslot.slow, hslot.failed, hslot.long, hslot.recorded, ?_⟩
  have hshort := hslot.short
  rw [Nat.mul_sub, Recording.records]
  omega

end BrzMetrics
