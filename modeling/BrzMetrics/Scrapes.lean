/-
One scrape after another.

Registrations only add entries, so what a reader has captured a later reader
captures too (`History.Reached.grows`), and the slots of a view only become more.
Counters only grow. So the series of the first output are in the second, with
values that are no smaller (`sample_value_mono`): sums, their cut-off and the
rounding of durations are all monotone.
-/
import BrzMetrics.Views
import BrzMetrics.Recording
import BrzMetrics.Values

set_option autoImplicit false

namespace BrzMetrics

open SortBy TextFormat

/-! ## Entries are never taken back -/

theorem MetricMeta.registered_injective : Function.Injective MetricMeta.registered := by
  rintro ⟨item, profile⟩ ⟨item', profile'⟩ h
  have hprofile := Metadata.timing.inj (congrArg KeyedStore.Entry.value h)
  have hitem := SlotPtr.timing.inj (congrArg KeyedStore.Entry.slot h)
  rw [MetricMeta.mk.injEq]
  exact ⟨hitem, hprofile⟩

theorem ScalarMeta.registered_injective : Function.Injective ScalarMeta.registered := by
  rintro ⟨name, resource, kind, mode, item⟩ ⟨name', resource', kind', mode', item'⟩ h
  obtain ⟨hname, hresource, hkind, hmode⟩ := Metadata.scalar.inj (congrArg KeyedStore.Entry.value h)
  have hitem := SlotPtr.scalar.inj (congrArg KeyedStore.Entry.slot h)
  rw [ScalarMeta.mk.injEq]
  exact ⟨hname, hresource, hkind, hmode, hitem⟩

/-- A timing entry is registered as such. -/
theorem registered_ne (m : MetricMeta) (m' : ScalarMeta) : m.registered ≠ m'.registered := by
  intro h
  exact SlotPtr.noConfusion (congrArg KeyedStore.Entry.slot h)

section Grows

variable {history : History} {m n : ℕ} {logs : Fin SHARD_COUNT → List MetricMeta}
  {scalars : Fin SHARD_COUNT → List ScalarMeta} {store : KeyedStore.Store StoreKey Metadata SlotPtr}

/-- The entries of a store are the listed ones. -/
theorem Represents.mem_timing {r : Registry} (h : Represents r logs scalars store) (m : MetricMeta) :
    m ∈ flat logs ↔ m.registered ∈ store.entries := by
  rw [← h.listed.mem_iff, List.mem_append]
  constructor
  · exact fun hm => .inl (List.mem_map_of_mem hm)
  · rintro (hm | hm)
    · exact (List.mem_map_of_injective MetricMeta.registered_injective).mp hm
    · obtain ⟨m', -, heq⟩ := List.mem_map.mp hm
      exact absurd heq.symm (registered_ne m m')

theorem Represents.mem_scalars {r : Registry} (h : Represents r logs scalars store)
    (m : ScalarMeta) : m ∈ flat scalars ↔ m.registered ∈ store.entries := by
  rw [← h.listed.mem_iff, List.mem_append]
  constructor
  · exact fun hm => .inr (List.mem_map_of_mem hm)
  · rintro (hm | hm)
    · obtain ⟨m', -, heq⟩ := List.mem_map.mp hm
      exact absurd heq (registered_ne m' m)
    · exact (List.mem_map_of_injective ScalarMeta.registered_injective).mp hm

/-- What is registered at one point of a history is registered at all later ones. -/
theorem History.Reached.grows (h : history.Reached m logs scalars store) (hle : m ≤ n) :
    ∃ logs' scalars' store', history.Reached n logs' scalars' store'
      ∧ flat logs ⊆ flat logs' ∧ flat scalars ⊆ flat scalars' := by
  have hstores : ∃ logs' scalars' store', history.Reached n logs' scalars' store'
      ∧ store.entries <+: store'.entries := by
    induction n, hle using Nat.le_induction with
    | base => exact ⟨logs, scalars, store, h, List.prefix_rfl⟩
    | succ n _ ih =>
      obtain ⟨logs', scalars', store', h', hgrows⟩ := ih
      obtain ⟨logs'', scalars'', store'', h'', hgrows', -⟩ := h'.succ
      exact ⟨logs'', scalars'', store'', h'', hgrows.trans hgrows'⟩
  obtain ⟨logs', scalars', store', h', hgrows⟩ := hstores
  refine ⟨logs', scalars', store', h', fun m hm => ?_, fun m hm => ?_⟩
  · exact (h'.represents.mem_timing m).mpr (hgrows.mem ((h.represents.mem_timing m).mp hm))
  · exact (h'.represents.mem_scalars m).mpr (hgrows.mem ((h.represents.mem_scalars m).mp hm))

end Grows

/-! ## Values only grow -/

/-- Every counter of one memory is at most that of another. -/
def Memory.Le (memory memory' : Memory) : Prop :=
  ∀ atomic, (memory atomic).toNat ≤ (memory' atomic).toNat

/-- Counters of a recording never decrease while no total exceeds a word. -/
theorem Recording.memory_mono {history : History} (self : Recording history)
    (hfits : ∀ atomic, added self.ops atomic ≤ U64_MAX) {t u : ℕ} (h : t ≤ u) :
    (self.memory t).Le (self.memory u) := by
  intro atomic
  have hexact : ∀ i, (self.memory i atomic).toNat = added (self.ops.take i) atomic := by
    intro i
    have hle := (added_take_le self.ops atomic i).trans (hfits atomic)
    unfold U64_MAX at hle
    rw [memory, state_toNat, Nat.mod_eq_of_lt (by omega)]
  rw [hexact, hexact]
  exact added_take_mono self.ops atomic h

theorem SourceItem.count_mono {memory memory' : Memory} (h : memory.Le memory')
    (counter : BrzMetrics.Counter) (item : SourceItem) :
    (item.count memory counter).toNat ≤ (item.count memory' counter).toNat := by
  cases item with
  | Timing item => exact h _
  | Counter item => exact h _
  | Gauge item => exact le_refl _

/-- More slots with larger values have a larger total. -/
theorem exact_total_mono {memory memory' : Memory} (h : memory.Le memory') (counter : Counter)
    {slots slots' : Finset SourceItem} (hslots : slots ⊆ slots') :
    exact_total memory counter slots ≤ exact_total memory' counter slots' :=
  calc exact_total memory counter slots
      ≤ exact_total memory' counter slots :=
        Finset.sum_le_sum (fun item _ => item.count_mono h counter)
    _ ≤ exact_total memory' counter slots' := Finset.sum_le_sum_of_subset hslots

/-- The slots of a view only become more. -/
theorem view_slots_mono {timing timing' : List MetricMeta} {scalars scalars' : List ScalarMeta}
    (htiming : timing ⊆ timing') (hscalars : scalars ⊆ scalars') (view : View) :
    view_slots (captured timing scalars) view ⊆ view_slots (captured timing' scalars') view := by
  intro item
  rw [mem_view_slots_captured, mem_view_slots_captured]
  rintro (⟨m, hm, hview⟩ | ⟨m, hm, hview⟩)
  · exact .inl ⟨m, htiming hm, hview⟩
  · exact .inr ⟨m, hscalars hm, hview⟩

theorem Decimal.toRat_ofNat (n : ℕ) : (Decimal.ofNat n).toRat = n := by
  have hfrac : Decimal.fracNat (Decimal.ofNat n).frac = 0 := rfl
  have hlen : (Decimal.ofNat n).frac.length = 0 := rfl
  rw [Decimal.toRat, hfrac, hlen]
  simp [Decimal.ofNat]

/-- A larger counter value has a larger sample, rounded or not. -/
theorem sample_value_mono {memory memory' : Memory} {family : Family}
    (hcounter : family.is_gauge = false) {items items' : List SourceItem}
    (h : (group_value memory family.counter items).toNat
      ≤ (group_value memory' family.counter items').toNat) :
    (sample_value memory family items).toRat ≤ (sample_value memory' family items').toRat := by
  have hne : ¬ family.is_gauge = true := by rw [hcounter]; simp
  rw [sample_value, sample_value, if_neg hne, if_neg hne]
  split_ifs with hseconds
  · rw [(hundredths_toNat _).1, (hundredths_toNat _).1]
    exact durations_mono h
  · rw [Decimal.toRat_ofNat, Decimal.toRat_ofNat]
    exact_mod_cast h

/-! ## Samples of a family -/

section Samples

variable {f64 : F64} {env : ℕ → Memory} {sources : List Source} {states : List StateSnapshot}
  {family : Family}

/-- A sample of a family is that of one of its groups. -/
theorem group_of_sample {labels : List (String × String)} {value : Decimal}
    (h : Entry.sample family.name labels value ∈ entries env 0 (exposition f64 sources states)) :
    ∃ i view items, (view, items) ∈ family_groups sources family ∧ labels = view.labels
      ∧ value = sample_value (env i) family items := by
  have hstate : ∀ family : Family, family.name ≠ "brz_rpc_state" := by decide
  obtain ⟨i, hi, hentry⟩ := List.mem_mapIdx.mp h
  have hline := List.getElem_mem hi
  generalize (exposition f64 sources states)[i] = line at hentry hline
  cases line with
  | type name mode => exact Entry.noConfusion hentry
  | state snapshot field value => exact absurd (Entry.sample.inj hentry).1.symm (hstate family)
  | group family' view items =>
    obtain ⟨hname, hlabels, hvalue⟩ := Entry.sample.inj hentry
    obtain rfl := Family.name_injective hname
    exact ⟨0 + i, view, items, mem_exposition_group.mp hline, hlabels.symm, hvalue.symm⟩

/-- Every group of a family has a sample. -/
theorem sample_of_group {view : View} {items : List SourceItem}
    (h : (view, items) ∈ family_groups sources family) (f64 : F64) (env : ℕ → Memory)
    (states : List StateSnapshot) :
    ∃ i, Entry.sample family.name view.labels (sample_value (env i) family items)
      ∈ entries env 0 (exposition f64 sources states) := by
  obtain ⟨i, hi, hline⟩ :=
    List.mem_iff_getElem.mp
      (mem_exposition_group.mpr h : Line.group family view items ∈ exposition f64 sources states)
  exact ⟨0 + i, List.mem_mapIdx.mpr ⟨i, hi, by rw [hline]; rfl⟩⟩

end Samples

/-- Counter series never go backwards or vanish between scrapes. For any calls that register and
count, in any order and overlapping in any way, as long as no counter's total exceeds a word: if a
reader is built when another has been read, with every read after all reads of the first, then each
series of the eight counter families in the first output is in the second, and its value is at least
what it was; durations after rounding included, and whatever was registered in between. -/
theorem History.scrapes_monotone (history : History) (r : Recording history)
    (hfits : ∀ atomic, added r.ops atomic ≤ U64_MAX) (layout : Layout) (order order' : IterOrder)
    (f64 : F64) {m n : ℕ} (hbuilt : m ≤ n) (times times' : ℕ → ℕ)
    (hread : ∀ i j, times i ≤ times' j) :
    ∃ reader reader', ∃ es es' : List Entry,
      PrometheusReader.from_registry layout order (history.registry m) = some reader
      ∧ PrometheusReader.from_registry layout order' (history.registry n) = some reader'
      ∧ Streams f64 (fun i => r.memory (times i)) 0 reader (es.map Entry.encode)
      ∧ Streams f64 (fun j => r.memory (times' j)) 0 reader' (es'.map Entry.encode)
      ∧ ∀ family : Family, family.is_gauge = false → ∀ labels value,
        Entry.sample family.name labels value ∈ es →
        ∃ value', Entry.sample family.name labels value' ∈ es' ∧ value.toRat ≤ value'.toRat := by
  obtain ⟨logs, scalars, store, hreached⟩ := history.reached m
  obtain ⟨logs', scalars', store', hreached', htiming, hscalars⟩ := hreached.grows hbuilt
  refine ⟨_, _, _, _, PrometheusReader.from_registry_eq hreached.represents.inv layout order,
    PrometheusReader.from_registry_eq hreached'.represents.inv layout order',
    streams_start layout _ _, streams_start layout _ _, ?_⟩
  intro family hcounter labels value hsample
  obtain ⟨i, view, items, hgroup, rfl, rfl⟩ := group_of_sample hsample
  -- the view is still captured, with more slots
  obtain ⟨hcaptured, hsupports⟩ :=
    (mem_family_groups layout _ family view).mp (List.mem_map_of_mem hgroup)
  have hslots := view_slots_mono htiming hscalars view
  have hcaptured' : ∃ s ∈ captured (flat logs') (flat scalars'), s.view = view := by
    refine exists_captured.mpr ((exists_captured.mp hcaptured).imp ?_ ?_)
    · exact fun ⟨m, hm, hview⟩ => ⟨m, htiming hm, hview⟩
    · exact fun ⟨m, hm, hview⟩ => ⟨m, hscalars hm, hview⟩
  obtain ⟨⟨view', items'⟩, hgroup', rfl⟩ := List.mem_map.mp
    ((mem_family_groups layout _ family view).mpr ⟨hcaptured', hsupports⟩)
  obtain ⟨j, hsample'⟩ := sample_of_group hgroup' f64 (fun j => r.memory (times' j))
    ((history.registry n).state_snapshot order')
  refine ⟨_, hsample', sample_value_mono hcounter ?_⟩
  have hvalue := group_value_kept layout _ (r.memory (times i)) family.counter family _ hgroup
  have hvalue' := group_value_kept layout _ (r.memory (times' j)) family.counter family _ hgroup'
  rw [hvalue, hvalue']
  exact min_le_min_left _ (exact_total_mono (r.memory_mono hfits (hread i j)) _ hslots)

/-- Two messages are dropped, one of them between two scrapes. -/
def drops : Recording logging :=
  .sequential logging [.increment queue, .increment queue] queue_drops_returned

theorem drops_scraped : ∃ reader reader', ∃ es es' : List Entry,
    Streams .unread (fun _ => drops.memory 1) 0 reader (es.map Entry.encode)
    ∧ Streams .unread (fun _ => drops.memory 2) 0 reader' (es'.map Entry.encode)
    ∧ ∀ labels value, Entry.sample "brz_req_total" labels value ∈ es →
      ∃ value', Entry.sample "brz_req_total" labels value' ∈ es' ∧ value.toRat ≤ value'.toRat := by
  have hfits : ∀ atomic, added drops.ops atomic ≤ U64_MAX := by
    intro atomic
    have hops : drops.ops = [⟨.slot queue.item .count, 1⟩] ++ [⟨.slot queue.item .count, 1⟩] := rfl
    rw [hops, added_append, added_singleton]
    split_ifs <;> decide
  obtain ⟨reader, reader', es, es', -, -, hfirst, hsecond, hmono⟩ :=
    logging.scrapes_monotone drops hfits .in_order .stored .stored .unread (le_refl 1)
      (fun _ => 1) (fun _ => 2) (fun _ _ => Nat.le_succ 1)
  exact ⟨reader, reader', es, es', hfirst, hsecond, hmono ⟨0, by decide⟩ rfl⟩

end BrzMetrics
