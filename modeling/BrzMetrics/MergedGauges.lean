/-
Gauges that are merged into one sample.

A merged gauge is the saturating sum of its slots in the order of their addresses
(`History.Reached.exports_iff`). The code decides that order only in part: slots of
one chunk are one array, so they are added up in the order in which they were
registered, and where a slot lies depends on the hash functions, on what else is
registered, and on the allocator.

So gauges with given values are added up in every order in some process: one whose
hash functions send all keys to one shard keeps them in the order in which it makes
them (`gauge_process`). A merged gauge is therefore the sum it stands for, cut off
at the limits of `i64`, in every process that keeps these values, exactly when no
order of the values can leave the range, or all have one sign
(`History.merged_gauge_iff`).
-/
import BrzMetrics.Attempts
import BrzMetrics.ScalarCalls

set_option autoImplicit false

namespace BrzMetrics

open SortBy TextFormat KeyedStore

/-! ## The sample of a merged gauge -/

/-- The slots of a group ascend by their addresses. -/
theorem group_items_pairwise (layout : Layout) (sources : List Source) (family : Family) :
    ∀ g ∈ family_groups (kept layout sources) family,
      g.2.Pairwise (fun a b => a.rank layout < b.rank layout) := by
  intro g hg
  obtain ⟨g, hmem, rfl⟩ := List.mem_map.mp hg
  have hfilter := groups_eq_filter Source.view (kept layout sources) (kept_views layout sources) g
    (List.mem_filter.mp hmem).1
  have hview : ∀ s ∈ g.2, s.view = g.1 := by
    intro s hs
    rw [hfilter] at hs
    simpa using (List.mem_filter.mp hs).2
  have hsorted : g.2.Pairwise (fun a b => a.rank layout < b.rank layout) := by
    rw [hfilter]
    exact (kept_pairwise layout sources).filter _
  refine List.pairwise_map.mpr (hsorted.imp_of_mem (fun {a b} ha hb hlt => ?_))
  rcases Prod.Lex.lt_iff.mp hlt with hlt | ⟨-, hlt⟩
  · exact absurd ((hview a ha).trans (hview b hb).symm) (ne_of_lt hlt)
  · exact hlt

/-- The sample of a view is `value` in the output of a reader built after the first `n` critical
sections, while the counters rest. -/
def History.Exports (history : History) (n : ℕ) (memory : Memory) (layout : Layout)
    (order : IterOrder) (f64 : F64) (family : Family) (view : View) (value : Decimal) : Prop :=
  ∃ reader items,
    PrometheusReader.from_registry layout order (history.registry n) = some reader
    ∧ Streams f64 (fun _ => memory) 0 reader
        (((reader.lines f64).map (Line.entry memory)).map Entry.encode)
    ∧ Line.group family view items ∈ reader.lines f64
    ∧ (Line.group family view items).entry memory = .sample family.name view.labels value

theorem Decimal.ofInt_injective : Function.Injective Decimal.ofInt := by
  intro a b h
  have hneg : decide (a < 0) = decide (b < 0) := congrArg Decimal.neg h
  have hint : a.natAbs = b.natAbs := congrArg Decimal.int h
  have hsign : a < 0 ↔ b < 0 := by simpa using hneg
  omega

section Sorted

variable {scalars : List ScalarMeta} {family : Family} {view : View}

/-- The group of a gauge view holds the view's slots in the order of their addresses. -/
theorem gauge_group_sorted (timing : List MetricMeta)
    (hscalars : (scalars.map ScalarMeta.item).Nodup)
    (hgauge : family.is_gauge = true) (hsupports : view.kind.supports family.val = true)
    (hview : ∃ m ∈ scalars, m.view = view) (layout : Layout) :
    (view, (sort_by (fun m => layout.scalar m.item) (scalars.filter (fun m => m.view = view))).map
        ScalarMeta.source_item)
      ∈ family_groups (kept layout (captured timing scalars)) family := by
  obtain ⟨g, hg, hgview⟩ := List.mem_map.mp
    ((mem_family_groups layout (captured timing scalars) family view).mpr
      ⟨exists_captured.mpr (.inr hview), hsupports⟩)
  have hitem : ∀ m ∈ sort_by (fun m : ScalarMeta => layout.scalar m.item)
      (scalars.filter (fun m => m.view = view)), m.source_item = .Gauge m.item := by
    intro m hm
    have hm := (List.mem_filter.mp (mem_sort_by.mp hm)).2
    rw [source_item_eq, gauge_mode hgauge hsupports (of_decide_eq_true hm)]
  -- the addresses are distinct, so there is one ascending order
  have hranks : ((scalars.filter (fun m => m.view = view)).map
      (fun m => layout.scalar m.item)).Nodup := by
    have := (hscalars.sublist ((List.filter_sublist (p := fun m => decide (m.view = view))).map _)).map
      layout.scalar_injective
    rwa [List.map_map] at this
  have hsorted := sort_by_pairwise_lt hranks
  have heq : (sort_by (fun m => layout.scalar m.item)
      (scalars.filter (fun m => m.view = view))).map ScalarMeta.source_item = g.2 := by
    refine eq_of_pairwise_lt (List.pairwise_map.mpr (hsorted.imp_of_mem (fun {a b} ha hb hlt => ?_)))
      (group_items_pairwise layout _ family g hg) (fun item => ?_)
    · rw [hitem a ha, hitem b hb]
      exact Prod.Lex.lt_iff.mpr (.inr ⟨rfl, hlt⟩)
    · rw [← List.mem_toFinset (l := g.2), (group_items layout _ family g hg).2, hgview,
        mem_view_slots_captured, List.mem_map]
      simp only [mem_sort_by, List.mem_filter, decide_eq_true_eq, and_assoc]
      constructor
      · rintro ⟨m, hm, hv, rfl⟩
        exact .inr ⟨m, hm, hv, rfl⟩
      · rintro (⟨m, -, hv, -⟩ | ⟨m, hm, hv, rfl⟩)
        · -- no timing slot is in a gauge family
          have hfamily : 8 ≤ family.val := of_decide_eq_true hgauge
          exact absurd (m.timing_family hv hsupports) (by omega)
        · exact ⟨m, hm, hv, rfl⟩
  rw [heq, ← hgview]
  exact hg

end Sorted

/-- The sample of a gauge view is what its slots add up to in the order of their addresses. -/
theorem History.Reached.exports_iff {history : History} {n : ℕ}
    {logs : Fin SHARD_COUNT → List MetricMeta} {scalars : Fin SHARD_COUNT → List ScalarMeta}
    {store : KeyedStore.Store StoreKey Metadata SlotPtr} (h : history.Reached n logs scalars store)
    (memory : Memory) (layout : Layout) (order : IterOrder) (f64 : F64) {family : Family}
    {view : View} (hgauge : family.is_gauge = true)
    (hsupports : view.kind.supports family.val = true)
    (hview : ∃ m ∈ flat scalars, m.view = view) (value : ℤ) :
    history.Exports n memory layout order f64 family view (Decimal.ofInt value)
      ↔ ((sort_by (fun m => layout.scalar m.item)
          ((flat scalars).filter (fun m => m.view = view))).foldl
            (fun acc m => saturating_add_i64 acc (m.source_item.level memory)) 0).toInt
        = value := by
  have hnodup := h.represents.inv.scalars.items_nodup
  have hreader := PrometheusReader.from_registry_eq h.represents.inv layout order
  have hgroup := gauge_group_sorted (flat logs) hnodup hgauge hsupports hview layout
  set slots := sort_by (fun m => layout.scalar m.item)
    ((flat scalars).filter (fun m => m.view = view))
  have hsample : (Line.group family view (slots.map ScalarMeta.source_item)).entry memory
      = .sample family.name view.labels (Decimal.ofInt
          (slots.foldl (fun acc m => saturating_add_i64 acc (m.source_item.level memory)) 0).toInt)
      := by
    rw [Line.entry, sample_value, if_pos hgauge, group_gauge, List.foldl_map]
  constructor
  · rintro ⟨reader, items, hfrom, -, hline, hvalue⟩
    obtain rfl := Option.some.inj (hfrom.symm.trans hreader)
    rw [PrometheusReader.lines_start, mem_exposition_group] at hline
    -- a view has one group only
    have hitems : items = slots.map ScalarMeta.source_item :=
      congrArg Prod.snd (List.inj_on_of_nodup_map (family_groups_nodup layout _ family) hline
        hgroup rfl)
    rw [hitems, hsample] at hvalue
    exact Decimal.ofInt_injective (Entry.sample.inj hvalue).2.2
  · intro hvalue
    refine ⟨_, slots.map ScalarMeta.source_item, hreader, ?_, ?_, by rw [hsample, hvalue]⟩
    · rw [PrometheusReader.lines_start, ← entries_const _ 0]
      exact streams_start layout _ _
    · rw [PrometheusReader.lines_start]
      exact mem_exposition_group.mpr hgroup

/-! ## A process that keeps its gauges in a given order -/

/-- The entry of a key. -/
def ScalarKey.entry (self : ScalarKey) (item : ScalarPtr) : ScalarMeta :=
  match self with
  | .named kind mode name => ⟨name, none, kind, mode, item⟩
  | .resource kind mode labels => ⟨labels.name, some labels, kind, mode, item⟩

/-- The call that makes a gauge of a key. -/
def ScalarKey.gauge_call : ScalarKey → PublicCall
  | .named kind _ name => .gauge_new kind name
  | .resource kind _ labels => .gauge_new_resource kind labels

/-- The registration this call makes. -/
def ScalarKey.gauge_registration : ScalarKey → Registration
  | .named kind _ name => .scalar_register kind .Gauge name
  | .resource kind _ labels => .scalar_register_resource kind .Gauge labels

/-- A process that makes gauges one after the other, in one shard. -/
def gauge_process (keys : List ScalarKey) : History :=
  History.sequential ⟨fun _ => 0⟩ ⟨fun _ => 0⟩ (keys.map ScalarKey.gauge_call)

/-- The slot of the gauge at a position. -/
def gauge_item (position : ℕ) : ScalarPtr :=
  ScalarShard.item_at ⟨0, SHARD_COUNT_pos⟩ position

/-- The entries of that process. -/
def gauge_entries (keys : List ScalarKey) : List ScalarMeta :=
  keys.mapIdx (fun position key => key.entry (gauge_item position))

/-- The logs of the scalar shards when only the first has entries. -/
def first_shard (log : List ScalarMeta) : Fin SHARD_COUNT → List ScalarMeta :=
  Function.update (fun _ => []) ⟨0, SHARD_COUNT_pos⟩ log

/-- The memory in which the gauges have the given values. -/
def gauge_memory (values : List Int64) : Memory
  | .scalar item => ((values[CHUNK_SIZE * item.chunk + item.offset]?).getD 0).toUInt64
  | .slot _ _ => 0

@[simp] theorem ScalarKey.entry_key (key : ScalarKey) (item : ScalarPtr) :
    (key.entry item).key = key := by
  cases key <;> rfl

@[simp] theorem ScalarKey.entry_item (key : ScalarKey) (item : ScalarPtr) :
    (key.entry item).item = item := by
  cases key <;> rfl

theorem ScalarMeta.key_mode (m : ScalarMeta) : m.key.mode = m.mode := by
  obtain ⟨name, resource, kind, mode, item⟩ := m
  cases resource <;> rfl

/-- An entry is known by its key and its slot. -/
theorem ScalarMeta.Checked.eq_entry {m : ScalarMeta} (h : m.Checked) : m = m.key.entry m.item := by
  obtain ⟨name, resource, kind, mode, item⟩ := m
  cases resource with
  | none => rfl
  | some labels =>
    obtain rfl : name = labels.name := h.named labels rfl
    rfl

theorem flat_first_shard (log : List ScalarMeta) : flat (first_shard log) = log := by
  obtain ⟨before, after, hshards⟩ :=
    List.append_of_mem (List.mem_finRange (⟨0, SHARD_COUNT_pos⟩ : Fin SHARD_COUNT))
  have hnodup := List.nodup_finRange SHARD_COUNT
  rw [hshards] at hnodup
  obtain ⟨hafter, hnodup⟩ := List.nodup_cons.mp (List.nodup_middle.mp hnodup)
  -- no other shard has entries
  have hother : ∀ i ∈ before ++ after, first_shard log i = [] :=
    fun i hi => Function.update_of_ne (ne_of_mem_of_not_mem hi hafter) _ _
  rw [flat, hshards, List.flatMap_append, List.flatMap_cons,
    List.flatMap_eq_nil_iff.mpr (fun i hi => hother i (List.mem_append_left _ hi)),
    List.flatMap_eq_nil_iff.mpr (fun i hi => hother i (List.mem_append_right _ hi)),
    List.append_nil, List.nil_append]
  exact Function.update_self _ _ _

theorem gauge_entries_keys (keys : List ScalarKey) :
    (gauge_entries keys).map ScalarMeta.key = keys := by
  refine List.ext_getElem (by simp [gauge_entries]) (fun i hi hi' => ?_)
  simp [gauge_entries]

/-- Both registrations of a gauge, by a name and by resource labels, go through one operation. -/
theorem ScalarKey.gauge_request (key : ScalarKey) (hmode : key.mode = .Gauge) :
    ∃ name resource, ScalarShard.call_key key.kind .Gauge name resource = key
      ∧ (∀ item, ScalarMeta.mk (entry_name name resource) resource key.kind .Gauge item
          = key.entry item)
      ∧ ∀ r item r',
        Registry.on_scalars (ScalarRegistry.enroll key.kind .Gauge name resource) r = .ok item r' →
        key.gauge_registration.issue r = .ok (.gauge ⟨item⟩) r' := by
  cases key with
  | named kind mode name =>
    obtain rfl : mode = .Gauge := hmode
    exact ⟨name, none, rfl, fun _ => rfl,
      fun r item r' hok => return_ok (return_ok hok GaugeMetric.mk) Handle.gauge⟩
  | resource kind mode labels =>
    obtain rfl : mode = .Gauge := hmode
    exact ⟨labels.name, some labels, rfl, fun _ => rfl,
      fun r item r' hok => return_ok (return_ok hok GaugeMetric.mk) Handle.gauge⟩

/-- A gauge that is new is entered at the next position. -/
theorem enroll_gauge {r : Registry} {logs : Fin SHARD_COUNT → List MetricMeta}
    {log : List ScalarMeta} (h : r.Inv logs (first_shard log))
    (hhasher : r.scalars.hasher = ⟨fun _ => 0⟩) {key : ScalarKey} (hmode : key.mode = .Gauge)
    (hkind : key.kind.rejection = none) (hnew : key ∉ log.map ScalarMeta.key)
    (issued : List Issued) :
    let r' := (Access.perform (issued, r) (.registration key.gauge_registration)).2
    r'.Inv logs (first_shard (log ++ [key.entry (gauge_item log.length)]))
      ∧ r'.scalars.hasher = ⟨fun _ => 0⟩ := by
  have hroute : ∀ k, r.scalars.route k = ⟨0, SHARD_COUNT_pos⟩ := by
    intro k
    rw [ScalarRegistry.route, hhasher]
    exact Fin.ext (Nat.zero_and _)
  have hfirst : ∀ log, first_shard log ⟨0, SHARD_COUNT_pos⟩ = log :=
    fun log => Function.update_self _ _ _
  obtain ⟨name, resource, hcall, hentry, hissue⟩ := key.gauge_request hmode
  obtain ⟨item, r', logs', hok, hinv, hhasher', hlogs, -⟩ :=
    ScalarRegistry.enroll_spec h.scalars (MetricType.rejection_eq_none.mp hkind) .Gauge name
      resource
  have hperform : (Access.perform (issued, r) (.registration key.gauge_registration)).2
      = { r with scalars := r' } := by
    rw [Access.perform, hissue _ item _ (by rw [Registry.on_scalars, hok])]
  rw [hcall, hroute, hfirst, hentry, enroll_of_notMem _ (by rwa [ScalarKey.entry_key])] at hlogs
  have hlogs : logs' = first_shard (log ++ [key.entry item]) := by
    rw [hlogs, first_shard, first_shard, Function.update_idem]
  subst hlogs
  -- the slot is the one at the end of the log
  have hitem : item = gauge_item log.length := by
    have hitems := (hinv.shards ⟨0, SHARD_COUNT_pos⟩).holds.items
    rw [hinv.ids, hfirst, List.length_append, List.length_singleton, List.range_succ,
      List.map_append, List.map_append] at hitems
    simpa [gauge_item] using (List.append_inj' hitems rfl).2
  rw [hperform, ← hitem]
  exact ⟨⟨h.ids, h.shards, h.routed, hinv⟩, hhasher'.trans hhasher⟩

/-- The process keeps its gauges in the order in which it makes them. -/
theorem gauge_process_inv {keys : List ScalarKey} (hnodup : keys.Nodup)
    (hkeys : ∀ key ∈ keys, key.mode = .Gauge ∧ key.kind.rejection = none) :
    let r := ((keys.map (fun key => Access.registration key.gauge_registration)).foldl
      Access.perform ([], Registry.new ⟨fun _ => 0⟩ ⟨fun _ => 0⟩)).2
    r.Inv (fun _ => []) (first_shard (gauge_entries keys))
      ∧ r.scalars.hasher = ⟨fun _ => 0⟩ := by
  induction keys using List.reverseRecOn with
  | nil =>
    refine ⟨?_, rfl⟩
    rw [show first_shard (gauge_entries []) = fun _ => [] from Function.update_eq_self _ _]
    exact Registry.inv_new _ _
  | append_singleton keys key ih =>
    obtain ⟨hkeys', -, hdisjoint⟩ := List.nodup_append.mp hnodup
    obtain ⟨hinv, hhasher⟩ := ih hkeys' (fun k hk => hkeys k (List.mem_append_left _ hk))
    obtain ⟨hmode, hkind⟩ := hkeys key (List.mem_append_right _ (List.mem_singleton_self _))
    have hnew : key ∉ (gauge_entries keys).map ScalarMeta.key := by
      rw [gauge_entries_keys]
      exact fun hmem => hdisjoint key hmem key (List.mem_singleton_self _) rfl
    have hstep := enroll_gauge hinv hhasher hmode hkind hnew
    rw [List.map_append, List.foldl_append, List.map_singleton, List.foldl_cons, List.foldl_nil,
      show gauge_entries (keys ++ [key]) = gauge_entries keys
        ++ [key.entry (gauge_item (gauge_entries keys).length)] by simp [gauge_entries]]
    exact hstep _

/-- What the process lists after its calls. -/
theorem gauge_process_for_each {keys : List ScalarKey} (hnodup : keys.Nodup)
    (hkeys : ∀ key ∈ keys, key.mode = .Gauge ∧ key.kind.rejection = none) :
    ((gauge_process keys).registry keys.length).scalars.for_each = some (gauge_entries keys) := by
  have haccesses : (gauge_process keys).accesses
      = keys.map (fun key => Access.registration key.gauge_registration) := by
    have hcall : ∀ key ∈ keys, key.gauge_call.accesses
        = [Access.registration key.gauge_registration] := by
      intro key hkey
      have hkind := (hkeys key hkey).2
      cases key <;> exact if_pos hkind
    show ((keys.map ScalarKey.gauge_call).map PublicCall.accesses).flatten = _
    rw [List.map_map, ← List.flatMap_def]
    exact (List.flatMap_congr hcall).trans List.map_eq_flatMap.symm
  obtain ⟨hinv, -⟩ := gauge_process_inv hnodup hkeys
  rw [History.registry, History.state, haccesses, List.take_of_length_le (by simp)]
  exact hinv.scalars.for_each.trans (by rw [flat_first_shard])

/-- In chunks that lie one after the other the slots of a shard ascend. -/
theorem gauge_item_ascends {i j : ℕ} (h : i < j) :
    Layout.in_order.scalar (gauge_item i) < Layout.in_order.scalar (gauge_item j) := by
  have hi := Nat.mod_lt i CHUNK_SIZE_pos
  have hj := Nat.mod_lt j CHUNK_SIZE_pos
  simp only [Layout.in_order, gauge_item, ScalarShard.item_at, Layout.address, if_pos hi, if_pos hj]
  simp only [CHUNK_SIZE, SHARD_COUNT, SCALAR_SLOT_BYTES] at hi hj ⊢
  omega

/-- Where the slots ascend, the gauges are added up in the order in which they were made. -/
theorem gauge_entries_sorted (layout : Layout) (keys : List ScalarKey)
    (h : ∀ i j, i < j → j < keys.length →
      layout.scalar (gauge_item i) < layout.scalar (gauge_item j)) :
    sort_by (fun m => layout.scalar m.item) (gauge_entries keys) = gauge_entries keys := by
  refine (sort_by_unique (fun a ha b hb heq => ?_) (List.Perm.refl _) ?_).symm
  · obtain ⟨i, hi, rfl⟩ := List.mem_mapIdx.mp ha
    obtain ⟨j, hj, rfl⟩ := List.mem_mapIdx.mp hb
    rw [ScalarKey.entry_item, ScalarKey.entry_item] at heq
    obtain rfl := ScalarShard.item_at_injective _ (layout.scalar_injective heq)
    rfl
  · refine List.pairwise_iff_getElem.mpr (fun i j hi hj hij => ?_)
    have hj' : j < keys.length := by simpa [gauge_entries] using hj
    simp only [gauge_entries, List.getElem_mapIdx, ScalarKey.entry_item]
    exact (h i j hij hj').le

/-- The gauges of the process have the given values. -/
theorem gauge_levels {levels : List (ScalarKey × Int64)}
    (hkeys : ∀ p ∈ levels, p.1.mode = .Gauge) :
    (gauge_entries (levels.map Prod.fst)).map
      (fun m => (m.key, m.source_item.level (gauge_memory (levels.map Prod.snd)))) = levels := by
  refine List.ext_getElem (by simp [gauge_entries]) (fun i hi hi' => ?_)
  have hmode := hkeys levels[i] (List.getElem_mem hi')
  have hplace : CHUNK_SIZE * (gauge_item i).chunk + (gauge_item i).offset = i :=
    Nat.div_add_mod i CHUNK_SIZE
  have hlevel : (levels[i].1.entry (gauge_item i)).source_item.level
      (gauge_memory (levels.map Prod.snd)) = levels[i].2 := by
    have hitem : (levels[i].1.entry (gauge_item i)).source_item = .Gauge (gauge_item i) := by
      rw [source_item_eq, ScalarKey.entry_item]
      generalize levels[i].1 = key at hmode
      cases key <;> (obtain rfl : _ = ScalarKind.Gauge := hmode; rfl)
    rw [hitem, SourceItem.level, ScalarPtr.read, gauge_memory, hplace, List.getElem?_map,
      List.getElem?_eq_getElem hi']
    rfl
  simp only [gauge_entries, List.getElem_map, List.getElem_mapIdx, ScalarKey.entry_key, hlevel]

/-! ## When a merged gauge is the sum it stands for -/

/-- The slots of a view, by their keys, and the values they hold in a process. -/
def History.Keeps (history : History) (n : ℕ) (memory : Memory) (view : View)
    (levels : List (ScalarKey × Int64)) : Prop :=
  ∃ scalars, (history.registry n).scalars.for_each = some scalars
    ∧ ((scalars.filter (fun m => m.view = view)).map
        (fun m => (m.key, m.source_item.level memory))).Perm levels

section Keeps

variable {history : History} {n : ℕ} {memory : Memory} {family : Family} {view : View}
  {levels : List (ScalarKey × Int64)}

/-- Where a slot lies is not part of its view. -/
theorem ScalarKey.entry_view (key : ScalarKey) (item item' : ScalarPtr) :
    (key.entry item).view = (key.entry item').view := by
  cases key with
  | named _ mode _ | resource _ mode _ => cases mode <;> rfl

/-- What is kept under a gauge view are distinct keys of gauges that any process can make. -/
theorem History.Keeps.keys (h : history.Keeps n memory view levels)
    (hgauge : family.is_gauge = true) (hsupports : view.kind.supports family.val = true) :
    (levels.map Prod.fst).Nodup
      ∧ ∀ p ∈ levels, (p.1.mode = .Gauge ∧ p.1.kind.rejection = none)
        ∧ ∀ item, (p.1.entry item).view = view := by
  obtain ⟨scalars, hscalars, hperm⟩ := h
  obtain ⟨logs, scalars', store, hreached⟩ := history.reached n
  obtain rfl := Option.some.inj (hscalars.symm.trans hreached.represents.inv.scalars.for_each)
  constructor
  · have hkeys := hreached.represents.inv.scalars.keys_nodup.sublist
      ((List.filter_sublist (p := fun m => decide (m.view = view))).map ScalarMeta.key)
    refine (hperm.map Prod.fst).nodup_iff.mp ?_
    rwa [List.map_map]
  · intro p hp
    obtain ⟨m, hm, rfl⟩ := List.mem_map.mp (hperm.mem_iff.mpr hp)
    obtain ⟨hm, hview⟩ := List.mem_filter.mp hm
    have hview : m.view = view := of_decide_eq_true hview
    have hchecked := hreached.scalar_checked m hm
    have hmode := gauge_mode hgauge hsupports hview
    refine ⟨⟨?_, ?_⟩, fun item => ?_⟩
    · exact m.key_mode.trans hmode
    · rw [m.key_kind]
      exact hchecked.kind
    · rw [ScalarKey.entry_view _ item m.item, ← hchecked.eq_entry, hview]

/-- The sample of kept gauges is what their values add up to in the order of the addresses. -/
theorem History.Keeps.exports_iff (h : history.Keeps n memory view levels) (hne : levels ≠ [])
    (hgauge : family.is_gauge = true) (hsupports : view.kind.supports family.val = true)
    (layout : Layout) (order : IterOrder) (f64 : F64) :
    ∃ scalars, (history.registry n).scalars.for_each = some scalars
      ∧ ((sort_by (fun m => layout.scalar m.item)
          (scalars.filter (fun m => m.view = view))).map
            (fun m => (m.key, m.source_item.level memory))).Perm levels
      ∧ ∀ value : ℤ, history.Exports n memory layout order f64 family view (Decimal.ofInt value)
        ↔ (((sort_by (fun m => layout.scalar m.item)
            (scalars.filter (fun m => m.view = view))).map
              (fun m => (m.key, m.source_item.level memory))).foldl
                (fun acc p => saturating_add_i64 acc p.2) 0).toInt = value := by
  obtain ⟨scalars, hscalars, hperm⟩ := h
  obtain ⟨logs, scalars', store, hreached⟩ := history.reached n
  obtain rfl := Option.some.inj (hscalars.symm.trans hreached.represents.inv.scalars.for_each)
  refine ⟨_, hscalars, ((sort_by_perm _ _).map _).trans hperm, fun value => ?_⟩
  obtain ⟨m, hm⟩ : ∃ m, m ∈ (flat scalars').filter (fun m => m.view = view) := by
    obtain ⟨p, hp⟩ := List.exists_mem_of_ne_nil _ hne
    obtain ⟨m, hm, -⟩ := List.mem_map.mp (hperm.mem_iff.mpr hp)
    exact ⟨m, hm⟩
  obtain ⟨hm, hview⟩ := List.mem_filter.mp hm
  rw [hreached.exports_iff memory layout order f64 hgauge hsupports
    ⟨m, hm, of_decide_eq_true hview⟩, List.foldl_map]

/-- Any order of such values is the order in which some process adds them up. -/
theorem gauge_process_keeps (view : View) (levels : List (ScalarKey × Int64))
    (hnodup : (levels.map Prod.fst).Nodup)
    (hlevels : ∀ p ∈ levels, (p.1.mode = .Gauge ∧ p.1.kind.rejection = none)
      ∧ ∀ item, (p.1.entry item).view = view) :
    ∃ scalars, ((gauge_process (levels.map Prod.fst)).registry levels.length).scalars.for_each
        = some scalars
      ∧ (sort_by (fun m => Layout.in_order.scalar m.item)
          (scalars.filter (fun m => m.view = view))).map
            (fun m => (m.key, m.source_item.level (gauge_memory (levels.map Prod.snd))))
        = levels := by
  have hkeys : ∀ key ∈ levels.map Prod.fst, key.mode = .Gauge ∧ key.kind.rejection = none := by
    intro key hkey
    obtain ⟨p, hp, rfl⟩ := List.mem_map.mp hkey
    exact (hlevels p hp).1
  have hlisted := gauge_process_for_each hnodup hkeys
  rw [List.length_map] at hlisted
  refine ⟨_, hlisted, ?_⟩
  have hall : (gauge_entries (levels.map Prod.fst)).filter (fun m => m.view = view)
      = gauge_entries (levels.map Prod.fst) := by
    refine List.filter_eq_self.mpr (fun m hm => decide_eq_true ?_)
    obtain ⟨i, hi, rfl⟩ := List.mem_mapIdx.mp hm
    rw [List.getElem_map]
    exact (hlevels _ (List.getElem_mem _)).2 _
  rw [hall, gauge_entries_sorted _ _ (fun i j hij _ => gauge_item_ascends hij)]
  exact gauge_levels (fun p hp => (hlevels p hp).1.1)

end Keeps

/-- A merged gauge is the sum of its slots, cut off at the limits of `i64`, in every process that
keeps given values in them, wherever it has put them, exactly when the positive values alone and the
negative values alone are in the range of `i64`, or there are none of one sign. -/
theorem History.merged_gauge_iff {family : Family} {view : View}
    {levels : List (ScalarKey × Int64)} (order : IterOrder) (f64 : F64)
    (hgauge : family.is_gauge = true) (hsupports : view.kind.supports family.val = true)
    (hne : levels ≠ [])
    (hkept : ∃ (history : History) (n : ℕ) (memory : Memory), history.Keeps n memory view levels) :
    (∀ (history : History) (n : ℕ) (memory : Memory), history.Keeps n memory view levels →
      ∀ layout : Layout, layout.Boxed → history.Exports n memory layout order f64 family view
        (Decimal.ofInt (clamp_i64 (levels.map (fun p => p.2.toInt)).sum)))
      ↔ (positive Prod.snd levels ≤ I64_MAX ∧ negative Prod.snd levels ≤ -I64_MIN)
        ∨ positive Prod.snd levels = 0 ∨ negative Prod.snd levels = 0 := by
  rw [← foldl_clamped_iff Prod.snd levels]
  constructor
  · intro hall levels' hperm
    -- a process that makes the gauges in this order, with one chunk after the other
    obtain ⟨_, _, _, hkept⟩ := hkept
    obtain ⟨hnodup, hlevels⟩ := hkept.keys hgauge hsupports
    obtain ⟨scalars, hscalars, hsorted⟩ := gauge_process_keeps view levels'
      ((hperm.map Prod.fst).nodup_iff.mpr hnodup)
      (fun p hp => hlevels p (hperm.mem_iff.mp hp))
    have hkeeps : History.Keeps (gauge_process (levels'.map Prod.fst)) levels'.length
        (gauge_memory (levels'.map Prod.snd)) view levels := by
      refine ⟨scalars, hscalars, ?_⟩
      rw [← hsorted] at hperm
      exact ((sort_by_perm _ _).map _).symm.trans hperm
    obtain ⟨scalars', hscalars', -, hiff⟩ :=
      hkeeps.exports_iff hne hgauge hsupports Layout.in_order order f64
    obtain rfl := Option.some.inj (hscalars.symm.trans hscalars')
    rw [hsorted] at hiff
    exact (hiff _).mp (hall _ _ _ hkeeps _ Layout.in_order_boxed)
  · intro hall history n memory hkeeps layout _
    obtain ⟨scalars, -, hperm, hiff⟩ :=
      hkeeps.exports_iff hne hgauge hsupports layout order f64
    exact (hiff _).mpr (hall _ hperm)

/-- Three gauges that share a view. -/
def queue_keys : List ScalarKey :=
  [.named (.Api 200) .Gauge "queue", .named .ApiTimeout .Gauge "queue",
    .named .ApiAll .Gauge "queue"]

/-- A process that keeps them. -/
def queues : History := gauge_process queue_keys

/-- Its gauges. -/
def queue_gauge (offset : ℕ) : GaugeMetric := ⟨gauge_item offset⟩

/-- The view that all three have. -/
def queue_view : View := ⟨⟨"API", "queue", none⟩, .Gauge⟩

theorem queues_scalars :
    (queues.registry 3).scalars.for_each = some (gauge_entries queue_keys) := rfl

/-- The largest value and one are too much together, but of one sign. -/
theorem queue_sum_clamped :
    let levels := after_calls Memory.zero
      [.gauge_set (queue_gauge 0) 9223372036854775807, .gauge_set (queue_gauge 1) 1]
    (queue_gauge 1).get levels = 1
    ∧ ∀ layout : Layout, layout.Boxed →
      queues.Exports 3 levels layout .stored .unread ⟨9, by decide⟩ queue_view
        (Decimal.ofInt 9223372036854775807) := by
  have hkept : queues.Keeps 3 (after_calls Memory.zero
      [.gauge_set (queue_gauge 0) 9223372036854775807, .gauge_set (queue_gauge 1) 1]) queue_view
      (queue_keys.zip [9223372036854775807, 1, 0]) := ⟨_, queues_scalars, List.Perm.refl _⟩
  exact ⟨rfl, (History.merged_gauge_iff .stored .unread rfl rfl (by decide)
    ⟨_, _, _, hkept⟩).mpr (by decide) _ _ _ hkept⟩

/-- The gauges are set to the largest value, to one and to minus one. -/
def queue_levels : Memory := after_calls Memory.zero
  [.gauge_set (queue_gauge 0) 9223372036854775807, .gauge_set (queue_gauge 1) 1,
    .gauge_set (queue_gauge 2) (-1)]

/-- At the limits a merged gauge depends on the order in which its slots were registered: these
three are in one chunk, so the largest value and one are added up first, wherever the chunk is. -/
theorem queue_sum_saturates :
    (queue_gauge 0).get queue_levels = 9223372036854775807
    ∧ (queue_gauge 1).get queue_levels = 1 ∧ (queue_gauge 2).get queue_levels = -1
    ∧ clamp_i64 (9223372036854775807 + 1 + -1) = 9223372036854775807
    ∧ ∀ layout : Layout, layout.Boxed → ∀ order f64,
      queues.Exports 3 queue_levels layout order f64 ⟨9, by decide⟩ queue_view
        (Decimal.ofInt 9223372036854775806)
      ∧ ¬ queues.Exports 3 queue_levels layout order f64 ⟨9, by decide⟩ queue_view
        (Decimal.ofInt (clamp_i64 (9223372036854775807 + 1 + -1))) := by
  refine ⟨rfl, rfl, rfl, by decide, fun layout hboxed order f64 => ?_⟩
  obtain ⟨logs, scalars, store, hreached⟩ := queues.reached 3
  have hscalars := Option.some.inj
    (queues_scalars.symm.trans hreached.represents.inv.scalars.for_each)
  have hsupports : queue_view.kind.supports (⟨9, by decide⟩ : Family).val = true := rfl
  have hiff := hreached.exports_iff queue_levels layout order f64 rfl hsupports
    (by rw [← hscalars]; exact ⟨_, List.mem_cons_self, rfl⟩)
  have hslots : (gauge_entries queue_keys).filter (fun m => m.view = queue_view)
      = gauge_entries queue_keys := by decide
  -- offsets 0, 1 and 2 of one array
  have hsorted := gauge_entries_sorted layout queue_keys (by
    intro i j hij hj
    have hj : j < CHUNK_SIZE := hj.trans (by decide)
    simp only [gauge_item, ScalarShard.item_at, Nat.div_eq_of_lt hj, Nat.mod_eq_of_lt hj,
      Nat.div_eq_of_lt (hij.trans hj), Nat.mod_eq_of_lt (hij.trans hj)]
    exact hboxed.scalar_ascends _ 0 hij hj)
  rw [← hscalars, hslots, hsorted] at hiff
  exact ⟨(hiff _).mpr (by decide), fun h => absurd ((hiff _).mp h) (by decide)⟩

end BrzMetrics
