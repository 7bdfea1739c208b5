/-
Calls on counters and gauges.

Every call on a scalar handle is one atomic operation, so however the calls of
any number of threads overlap, a run is the list of the calls in the order of
their operations. A slot then holds the last value set, or zero, plus what was
added after it, modulo `2 ^ 64` (`bits_of_adds`, `bits_after_set`). A gauge keeps
a signed number in that word; reading it back gives the one number of the range
of `i64` with these bits (`GaugeMetric.get_spec`).
-/
import BrzMetrics.Views
import BrzMetrics.Cumulative

set_option autoImplicit false

namespace BrzMetrics

open SortBy TextFormat KeyedStore

/-! ## Calls and their operations -/

/-- An atomic operation on a scalar slot. -/
inductive ScalarOp where
  | fetch_add (op : FetchAdd)
  | store (op : AtomicStore)
deriving DecidableEq, Repr

def ScalarOp.apply (memory : Memory) : ScalarOp → Memory
  | .fetch_add op => op.apply memory
  | .store op => op.apply memory

/-- A call on a counter or a gauge. -/
inductive ScalarCall where
  | counter_inc (counter : CounterMetric)
  | counter_add (counter : CounterMetric) (value : UInt64)
  | gauge_inc (gauge : GaugeMetric)
  | gauge_dec (gauge : GaugeMetric)
  | gauge_add (gauge : GaugeMetric) (value : Int64)
  | gauge_set (gauge : GaugeMetric) (value : Int64)
deriving DecidableEq, Repr

namespace ScalarCall

/-- The atomic operations of a call. -/
def ops : ScalarCall → List ScalarOp
  | .counter_inc counter => counter.inc.map .fetch_add
  | .counter_add counter value => (counter.add value).map .fetch_add
  | .gauge_inc gauge => gauge.inc.map .fetch_add
  | .gauge_dec gauge => gauge.dec.map .fetch_add
  | .gauge_add gauge value => (gauge.add value).map .fetch_add
  | .gauge_set gauge value => [.store (gauge.set value)]

/-- The slot a call is made on. -/
def item : ScalarCall → ScalarPtr
  | .counter_inc counter | .counter_add counter _ => counter.item
  | .gauge_inc gauge | .gauge_dec gauge | .gauge_add gauge _ | .gauge_set gauge _ => gauge.item

/-- The number a call adds, and whether it replaces the value instead. -/
def effect : ScalarCall → ℤ × Bool
  | .counter_inc _ | .gauge_inc _ => (1, false)
  | .counter_add _ value => (value.toNat, false)
  | .gauge_dec _ => (-1, false)
  | .gauge_add _ value => (value.toInt, false)
  | .gauge_set _ value => (value.toInt, true)

/-- What a call adds to a slot. -/
def amount (self : ScalarCall) (item : ScalarPtr) : ℤ := if self.item = item then self.effect.1 else 0

/-- Whether a call sets a slot. -/
def sets (self : ScalarCall) (item : ScalarPtr) : Bool := self.item = item && self.effect.2

end ScalarCall

/-- Memory after calls whose operations happened in this order. -/
def after_calls (memory : Memory) (calls : List ScalarCall) : Memory :=
  (calls.flatMap ScalarCall.ops).foldl ScalarOp.apply memory

theorem after_calls_append (memory : Memory) (calls calls' : List ScalarCall) :
    after_calls memory (calls ++ calls') = after_calls (after_calls memory calls) calls' := by
  rw [after_calls, List.flatMap_append, List.foldl_append]
  rfl

/-! ## The bits of a slot -/

/-- A call on another slot leaves a slot alone. -/
theorem after_calls_of_ne (memory : Memory) {call : ScalarCall} {item : ScalarPtr}
    (h : call.item ≠ item) : after_calls memory [call] (.scalar item) = memory (.scalar item) := by
  have hne : Atomic.scalar item ≠ .scalar call.item := fun heq => h (Atomic.scalar.inj heq).symm
  cases call <;> exact Function.update_of_ne hne _ _

/-- An addition adds its number, modulo the word size, whatever its sign. -/
theorem after_calls_add (memory : Memory) {call : ScalarCall} {item : ScalarPtr}
    (h : call.sets item = false) :
    ((after_calls memory [call] (.scalar item)).toNat : ℤ)
      = ((memory (.scalar item)).toNat + call.amount item) % 2 ^ 64 := by
  have hlt := (memory (.scalar item)).toNat_lt
  by_cases hitem : call.item = item
  · subst hitem
    -- what is added is a word with the bits of the number
    have hadd : ∀ (value : UInt64) (n : ℤ), (value.toNat : ℤ) = n % 2 ^ 64 →
        ((Function.update memory (.scalar call.item) (memory (.scalar call.item) + value)
          (.scalar call.item)).toNat : ℤ) = ((memory (.scalar call.item)).toNat + n) % 2 ^ 64 := by
      intro value n hvalue
      rw [Function.update_self, UInt64.toNat_add]
      omega
    rw [ScalarCall.amount, if_pos rfl]
    cases call with
    | counter_inc counter => exact hadd 1 1 (by decide)
    | counter_add counter value =>
      exact hadd value value.toNat (by have := value.toNat_lt; omega)
    | gauge_inc gauge => exact hadd _ 1 (toUInt64_toNat 1)
    | gauge_dec gauge => exact hadd _ (-1) (toUInt64_toNat (-1))
    | gauge_add gauge value => exact hadd _ value.toInt (toUInt64_toNat value)
    | gauge_set gauge value => simp [ScalarCall.sets, ScalarCall.effect] at h
  · rw [after_calls_of_ne memory hitem, ScalarCall.amount, if_neg hitem]
    omega

/-- Setting a gauge stores the bits of its value. -/
theorem after_calls_set (memory : Memory) (gauge : GaugeMetric) (value : Int64) :
    ((after_calls memory [.gauge_set gauge value] (.scalar gauge.item)).toNat : ℤ)
      = value.toInt % 2 ^ 64 := by
  rw [← toUInt64_toNat value]
  exact congrArg (fun w : UInt64 => (w.toNat : ℤ)) (Function.update_self _ _ _)

/-- Without a `set`, additions add up in any order. -/
theorem bits_of_adds (memory : Memory) (calls : List ScalarCall) (item : ScalarPtr)
    (h : ∀ call ∈ calls, call.sets item = false) :
    ((after_calls memory calls (.scalar item)).toNat : ℤ)
      = ((memory (.scalar item)).toNat + (calls.map (fun call => call.amount item)).sum)
          % 2 ^ 64 := by
  induction calls using List.reverseRecOn with
  | nil =>
    have hlt := (memory (.scalar item)).toNat_lt
    rw [List.map_nil, List.sum_nil, after_calls, List.flatMap_nil, List.foldl_nil]
    omega
  | append_singleton calls call ih =>
    rw [after_calls_append,
      after_calls_add _ (h call (List.mem_append_right _ (List.mem_singleton_self _))),
      ih (fun c hc => h c (List.mem_append_left _ hc)), List.map_append, List.sum_append]
    simp only [List.map_cons, List.map_nil, List.sum_cons, List.sum_nil]
    omega

/-- After its last `set` a slot holds the value set plus what was added since. -/
theorem bits_after_set (memory : Memory) (before after : List ScalarCall) (gauge : GaugeMetric)
    (value : Int64) (h : ∀ call ∈ after, call.sets gauge.item = false) :
    ((after_calls memory (before ++ .gauge_set gauge value :: after)
        (.scalar gauge.item)).toNat : ℤ)
      = (value.toInt + (after.map (fun call => call.amount gauge.item)).sum) % 2 ^ 64 := by
  rw [← List.singleton_append, after_calls_append, after_calls_append, bits_of_adds _ _ _ h,
    after_calls_set]
  omega

/-! ## Reading a gauge -/

/-- A gauge reads the one signed number of its range that has the slot's bits. -/
theorem GaugeMetric.get_spec (gauge : GaugeMetric) (memory : Memory) :
    -2 ^ 63 ≤ (gauge.get memory).toInt ∧ (gauge.get memory).toInt < 2 ^ 63
      ∧ (gauge.get memory).toInt % 2 ^ 64 = (memory (.scalar gauge.item)).toNat
      ∧ ∀ n : ℤ, -2 ^ 63 ≤ n → n < 2 ^ 63 → n % 2 ^ 64 = (memory (.scalar gauge.item)).toNat →
          n = (gauge.get memory).toInt := by
  have hlo := (gauge.get memory).le_toInt
  have hhi := (gauge.get memory).toInt_lt
  have hbits : (gauge.get memory).toInt % 2 ^ 64 = (memory (.scalar gauge.item)).toNat :=
    toInt64_emod _
  exact ⟨hlo, hhi, hbits, fun n hn hn' hmod => by omega⟩

/-! ## Exported gauges -/

/-- The view of a gauge. -/
theorem ScalarMeta.view_of_gauge {m : ScalarMeta} (h : m.mode = .Gauge) :
    m.view.kind = if m.kind.is_conn then .ConnGauge else .Gauge := by
  obtain ⟨name, resource, kind, mode, item⟩ := m
  obtain rfl : mode = .Gauge := h
  rfl

/-- The family of a gauge. -/
def gauge_family (is_conn : Bool) : Family := if is_conn then ⟨8, by decide⟩ else ⟨9, by decide⟩

theorem gauge_family_spec (is_conn : Bool) :
    (gauge_family is_conn).is_gauge = true ∧ 6 ≤ (gauge_family is_conn).val
      ∧ (if is_conn then SourceKind.ConnGauge else .Gauge).supports (gauge_family is_conn).val
          = true := by
  cases is_conn <;> decide

/-- Slots of a gauge view are gauges. -/
theorem gauge_mode {family : Family} {view : View} (hgauge : family.is_gauge = true)
    (hsupports : view.kind.supports family.val = true) {m : ScalarMeta} (hm : m.view = view) :
    m.mode = .Gauge := by
  obtain ⟨name, resource, kind, mode, item⟩ := m
  cases mode with
  | Gauge => rfl
  | Counter =>
    exfalso
    have hkind : (Source.of_scalar ⟨name, resource, kind, .Counter, item⟩).kind = view.kind :=
      congrArg View.kind hm
    have hfamily : 8 ≤ family.val := of_decide_eq_true hgauge
    -- no kind that a counter is captured as is in a gauge family
    rw [← hkind] at hsupports
    have hno : ∀ c : Bool, (if c then SourceKind.ConnCounter else .Count).supports family.val
        = true → False := by
      intro c hc
      cases c <;> simp [SourceKind.supports] at hc <;> omega
    have hno := hno kind.is_conn
    cases kind with
    | Api _ | ApiTimeout =>
      simp [Source.of_scalar, SourceKind.supports] at hsupports
      omega
    | _ => exact hno hsupports

section Exported

variable {layout : Layout} {timing : List MetricMeta} {scalars : List ScalarMeta}

/-- A gauge that shares its view with no other slot is a group of its own. -/
theorem gauge_group {m : ScalarMeta} (hm : m ∈ scalars) (hmode : m.mode = .Gauge)
    (hunmerged : ∀ m' ∈ scalars, m'.view = m.view → m' = m) :
    (m.view, [SourceItem.Gauge m.item])
      ∈ family_groups (kept layout (captured timing scalars)) (gauge_family m.kind.is_conn) := by
  obtain ⟨-, hfamily, hsupports⟩ := gauge_family_spec m.kind.is_conn
  rw [← m.view_of_gauge hmode] at hsupports
  have hitem : m.source_item = .Gauge m.item := by rw [source_item_eq, hmode]
  obtain ⟨g, hg, hview⟩ := List.mem_map.mp
    ((mem_family_groups layout (captured timing scalars) (gauge_family m.kind.is_conn) m.view).mpr
      ⟨exists_captured.mpr (.inr ⟨m, hm, rfl⟩), hsupports⟩)
  obtain ⟨hnodup, hitems⟩ := group_items layout _ _ g hg
  -- the only slot with the view is this gauge
  have hslots : g.2.toFinset = {SourceItem.Gauge m.item} := by
    ext item
    rw [hitems, hview, mem_view_slots_captured, Finset.mem_singleton]
    constructor
    · rintro (⟨m', -, hview', -⟩ | ⟨m', hm', hview', rfl⟩)
      · exact absurd (m'.timing_family hview' hsupports) (Nat.not_lt.mpr hfamily)
      · rw [hunmerged m' hm' hview', hitem]
    · rintro rfl
      exact .inr ⟨m, hm, rfl, hitem.symm⟩
  have hsingle : g.2 = [SourceItem.Gauge m.item] := by
    have hperm : g.2.Perm [SourceItem.Gauge m.item] :=
      (List.perm_ext_iff_of_nodup hnodup (List.nodup_singleton _)).mpr (fun item => by
        rw [← List.mem_toFinset, hslots, Finset.mem_singleton, List.mem_singleton])
    exact List.perm_singleton.mp hperm
  rw [← hview, ← hsingle]
  exact hg

/-- Its sample is what the gauge reads. -/
theorem gauge_sample (gauge : GaugeMetric) (memory : Memory) (view : View) (is_conn : Bool) :
    (Line.group (gauge_family is_conn) view [.Gauge gauge.item]).entry memory
      = .sample (gauge_family is_conn).name view.labels
          (Decimal.ofInt (gauge.get memory).toInt) := by
  have hvalue : group_gauge memory [.Gauge gauge.item] = gauge.get memory := by
    have hzero : saturating_add_i64 0 (gauge.get memory) = gauge.get memory := by
      have hlo := (gauge.get memory).le_toInt
      have hhi := (gauge.get memory).toInt_lt
      refine Int64.toInt_inj.mp ?_
      rw [saturating_add_i64_toInt, Int64.toInt_zero]
      unfold I64_MIN I64_MAX
      omega
    exact hzero
  rw [Line.entry, sample_value, if_pos (gauge_family_spec is_conn).1, hvalue]

end Exported

/-- A counter and a gauge never share a slot. -/
theorem History.counter_ne_gauge {history : History} {op op' : Registration}
    {counter : CounterMetric} {gauge : GaugeMetric} (h : history.Returned op (.counter counter))
    (h' : history.Returned op' (.gauge gauge)) : counter.item ≠ gauge.item := by
  intro heq
  have hkey := (h.slot_eq_iff h').mp (congrArg SlotPtr.scalar heq)
  have hof := h.of_key
  rw [hkey] at hof
  have hof' := h'.of_key
  generalize op'.key = key at hof hof'
  cases hof with
  | counter key item hmode =>
    cases hof' with
    | gauge _ _ hmode' =>
      rw [hmode] at hmode'
      exact ScalarKind.noConfusion hmode'

/-- The entry of a gauge. -/
theorem History.Reached.gauge_entry {history : History} {n : ℕ}
    {logs : Fin SHARD_COUNT → List MetricMeta} {scalars : Fin SHARD_COUNT → List ScalarMeta}
    {store : Store StoreKey Metadata SlotPtr} (h : history.Reached n logs scalars store)
    {op : Registration} {gauge : GaugeMetric} (hissued : (op, .gauge gauge) ∈ history.issued n) :
    ∃ m ∈ flat scalars, m.item = gauge.item ∧ m.mode = .Gauge ∧ op.key = .scalar m.key := by
  obtain ⟨entry, hentry, hkey, hslot⟩ :=
    h.runs.stored _ (List.mem_map_of_mem (f := Issued.entry) hissued)
  have hmode := h.handles _ hissued
  rcases List.mem_append.mp (h.represents.listed.mem_iff.mpr hentry) with hmem | hmem
  · obtain ⟨m, -, rfl⟩ := List.mem_map.mp hmem
    exact SlotPtr.noConfusion hslot
  · obtain ⟨m, hm, rfl⟩ := List.mem_map.mp hmem
    have hopkey : op.key = .scalar m.key := hkey.symm
    refine ⟨m, hm, SlotPtr.scalar.inj hslot, ?_, hopkey⟩
    rw [show (op, Handle.gauge gauge).1.key = op.key from rfl, hopkey] at hmode
    cases hmode with
    | gauge key item hmode =>
      rw [← hmode, ScalarMeta.key]
      cases m.resource <;> rfl

/-- Updates of counters and gauges are never lost and keep their sign. However calls overlap, a
slot's bits are the value last set, or zero, plus what is added after that, modulo `2 ^ 64`; a gauge
reads the one number of the range of `i64` with these bits, and that is also what a reader exports
for a gauge that is not merged with another slot; without a `set` the bits do not depend on the
order of the calls; and a counter and a gauge never affect each other. -/
theorem History.scalar_updates_exact (history : History) (calls : List ScalarCall) :
    let memory := after_calls Memory.zero calls
    (∀ item, (∀ call ∈ calls, call.sets item = false) →
      ((memory (.scalar item)).toNat : ℤ)
        = (calls.map (fun call => call.amount item)).sum % 2 ^ 64)
    ∧ (∀ before after gauge value, calls = before ++ .gauge_set gauge value :: after →
      (∀ call ∈ after, call.sets gauge.item = false) →
      ((memory (.scalar gauge.item)).toNat : ℤ)
        = (value.toInt + (after.map (fun call => call.amount gauge.item)).sum) % 2 ^ 64)
    ∧ (∀ gauge : GaugeMetric, -2 ^ 63 ≤ (gauge.get memory).toInt
      ∧ (gauge.get memory).toInt < 2 ^ 63
      ∧ (gauge.get memory).toInt % 2 ^ 64 = (memory (.scalar gauge.item)).toNat
      ∧ ∀ n : ℤ, -2 ^ 63 ≤ n → n < 2 ^ 63 → n % 2 ^ 64 = (memory (.scalar gauge.item)).toNat →
          n = (gauge.get memory).toInt)
    ∧ (∀ (n : ℕ) (layout : Layout) (order : IterOrder) (f64 : F64),
      ∃ scalars reader, ∃ lines : List Line,
        (history.registry n).scalars.for_each = some scalars
        ∧ PrometheusReader.from_registry layout order (history.registry n) = some reader
        ∧ Streams f64 (fun _ => memory) 0 reader
            ((lines.map (Line.entry memory)).map Entry.encode)
        ∧ ∀ op gauge, (op, .gauge gauge) ∈ history.issued n →
            ∃ m ∈ scalars, ∃ family : Family, m.item = gauge.item ∧ family.is_gauge = true
              ∧ ((∀ m' ∈ scalars, m'.view = m.view → m' = m) →
                  ∃ line ∈ lines, line.entry memory = .sample family.name m.view.labels
                    (Decimal.ofInt (gauge.get memory).toInt)))
    ∧ (∀ calls' item, calls.Perm calls' → (∀ call ∈ calls, call.sets item = false) →
      after_calls Memory.zero calls' (.scalar item) = memory (.scalar item))
    ∧ ∀ op op' counter gauge, history.Returned op (.counter counter) →
        history.Returned op' (.gauge gauge) →
        (∀ call : ScalarCall, call.item = counter.item → ∀ before,
          after_calls before [call] (.scalar gauge.item) = before (.scalar gauge.item))
        ∧ ∀ call : ScalarCall, call.item = gauge.item → ∀ before,
          after_calls before [call] (.scalar counter.item) = before (.scalar counter.item) := by
  -- all slots start at zero
  have hadds : ∀ (calls : List ScalarCall) (item : ScalarPtr),
      (∀ call ∈ calls, call.sets item = false) →
      ((after_calls Memory.zero calls (.scalar item)).toNat : ℤ)
        = (calls.map (fun call => call.amount item)).sum % 2 ^ 64 := by
    intro calls item h
    rw [bits_of_adds Memory.zero calls item h]
    exact congrArg (· % 2 ^ 64) (zero_add _)
  refine ⟨hadds calls, ?_, fun gauge => gauge.get_spec _, ?_, ?_, ?_⟩
  · intro before after gauge value hcalls hafter
    rw [hcalls]
    exact bits_after_set Memory.zero before after gauge value hafter
  · intro n layout order f64
    obtain ⟨logs, scalars, store, hreached⟩ := history.reached n
    have hinv := hreached.represents.inv
    refine ⟨flat scalars, _, exposition f64 (kept layout (captured (flat logs) (flat scalars)))
        ((history.registry n).state_snapshot order), hinv.scalars.for_each,
      PrometheusReader.from_registry_eq hinv layout order, ?_, ?_⟩
    · rw [← entries_const _ 0]
      exact streams_start layout _ _
    · intro op gauge hissued
      -- a view of its own makes the gauge a group of one slot
      obtain ⟨m, hm, hitem, hmode, -⟩ := hreached.gauge_entry hissued
      refine ⟨m, hm, gauge_family m.kind.is_conn, hitem, (gauge_family_spec _).1,
        fun hunmerged => ?_⟩
      refine ⟨_, mem_exposition_group.mpr (gauge_group hm hmode hunmerged), ?_⟩
      rw [hitem]
      exact gauge_sample gauge _ _ _
  · intro calls' item hperm h
    refine UInt64.toNat_inj.mp (Int.ofNat_inj.mp ?_)
    have h' : ∀ call ∈ calls', call.sets item = false :=
      fun call hcall => h call (hperm.mem_iff.mpr hcall)
    have hsum := (hperm.map (fun call => call.amount item)).sum_eq
    -- the amounts add up to the same number in either order
    exact (hadds calls' item h').trans
      ((congrArg (· % (2 : ℤ) ^ 64) hsum.symm).trans (hadds calls item h).symm)
  · intro op op' counter gauge hcounter hgauge
    have hne := History.counter_ne_gauge hcounter hgauge
    exact ⟨fun call hcall before => after_calls_of_ne before (hcall.trans_ne hne),
      fun call hcall before => after_calls_of_ne before (hcall.trans_ne hne.symm)⟩

end BrzMetrics
