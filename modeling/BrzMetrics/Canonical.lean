/-
The exposition is a function of the registry's content.

Two registries have the same content (`Alike`) when they hold the same keys, and
under each key the same metadata and the same values, wherever the slots are. The
order of a reader's lines comes from the views alone, a group's counter value is
an exact total that is cut off once, and a gauge that stays in range is an exact
sum. So each line is computed from the content (`group_entry`), and the complete
outputs of two readers are equal byte for byte (`History.output_canonical`).
-/
import BrzMetrics.Views
import BrzMetrics.Snapshot

set_option autoImplicit false

namespace BrzMetrics

open SortBy TextFormat

/-! ## Matching lists by keys -/

section Matching

variable {α α' κ δ : Type}

theorem nodup_with_key {l : List α} {key : α → κ} (data : α → δ) (h : (l.map key).Nodup) :
    (l.map (fun a => (key a, data a))).Nodup := by
  refine List.Nodup.of_map Prod.fst ?_
  rw [List.map_map]
  exact h

/-- Lists that hold the same keys, and under each key the same data, hold the same data. -/
theorem map_data_perm {l : List α} {l' : List α'} {key : α → κ} {key' : α' → κ} {data : α → δ}
    {data' : α' → δ} (hnodup : (l.map key).Nodup) (hnodup' : (l'.map key').Nodup)
    (hkeys : ∀ k, k ∈ l.map key ↔ k ∈ l'.map key')
    (hdata : ∀ a ∈ l, ∀ b ∈ l', key a = key' b → data a = data' b) :
    (l.map data).Perm (l'.map data') := by
  have hpairs : (l.map (fun a => (key a, data a))).Perm (l'.map (fun b => (key' b, data' b))) := by
    -- with its key every element occurs once, so the lists are compared by membership
    refine (List.perm_ext_iff_of_nodup (nodup_with_key data hnodup)
      (nodup_with_key data' hnodup')).mpr (fun ⟨k, d⟩ => ?_)
    simp only [List.mem_map, Prod.mk.injEq]
    constructor
    · rintro ⟨a, ha, rfl, rfl⟩
      obtain ⟨b, hb, hkey⟩ := List.mem_map.mp ((hkeys (key a)).mp (List.mem_map_of_mem ha))
      exact ⟨b, hb, hkey, (hdata a ha b hb hkey.symm).symm⟩
    · rintro ⟨b, hb, rfl, rfl⟩
      obtain ⟨a, ha, hkey⟩ := List.mem_map.mp ((hkeys (key' b)).mpr (List.mem_map_of_mem hb))
      exact ⟨a, ha, hkey, hdata a ha b hb hkey⟩
  have hsnd := hpairs.map Prod.snd
  rwa [List.map_map, List.map_map] at hsnd

/-- Sums over what is selected by the data are equal. -/
theorem sum_data_eq {M : Type} [AddCommMonoid M] {l : List α} {l' : List α'} {data : α → δ}
    {data' : α' → δ} (h : (l.map data).Perm (l'.map data')) (P : δ → Prop) [DecidablePred P]
    (v : δ → M) :
    ((l.filter (fun a => P (data a))).map (fun a => v (data a))).sum
      = ((l'.filter (fun a => P (data' a))).map (fun a => v (data' a))).sum := by
  have hsum := ((h.filter (fun d => decide (P d))).map v).sum_eq
  rw [List.filter_map, List.filter_map, List.map_map, List.map_map] at hsum
  exact hsum

end Matching

/-! ## Content -/

/-- What a slot holds, field by field. A scalar slot has one value only. -/
def SlotPtr.contents (memory : Memory) : SlotPtr → SlotField → UInt64
  | .timing item, field => memory (.slot item field)
  | .scalar item, _ => memory (.scalar item)

/-- The entries of a registry of either kind. -/
def Registry.entries (self : Registry) : Option (List Registered) := do
  let timing ← self.for_each_meta
  let scalars ← self.scalars.for_each
  return timing.map MetricMeta.registered ++ scalars.map ScalarMeta.registered

/-- The same keys are registered, each with the same metadata and with the same values in its slot. -/
structure Alike (memory memory' : Memory) (entries entries' : List Registered) : Prop where
  keys : ∀ key, key ∈ entries.map KeyedStore.Entry.key ↔ key ∈ entries'.map KeyedStore.Entry.key
  same : ∀ e ∈ entries, ∀ e' ∈ entries', e.key = e'.key →
    e.value = e'.value ∧ e.slot.contents memory = e'.slot.contents memory'

section Content

variable {memory memory' : Memory} {timing timing' : List MetricMeta}
  {scalars scalars' : List ScalarMeta}

/-- The timing keys among the entries. -/
theorem mem_timing_keys (timing : List MetricMeta) (scalars : List ScalarMeta) (key : TimingKey) :
    StoreKey.timing key ∈ (timing.map MetricMeta.registered
        ++ scalars.map ScalarMeta.registered).map KeyedStore.Entry.key
      ↔ key ∈ timing.map MetricMeta.key := by
  simp [MetricMeta.registered, ScalarMeta.registered]

/-- The scalar keys among the entries. -/
theorem mem_scalar_keys (timing : List MetricMeta) (scalars : List ScalarMeta) (key : ScalarKey) :
    StoreKey.scalar key ∈ (timing.map MetricMeta.registered
        ++ scalars.map ScalarMeta.registered).map KeyedStore.Entry.key
      ↔ key ∈ scalars.map ScalarMeta.key := by
  simp [MetricMeta.registered, ScalarMeta.registered]

/-- Registries of the same content have the same views and counter values in their timing slots. -/
theorem Alike.timing_perm (h : Alike memory memory'
      (timing.map MetricMeta.registered ++ scalars.map ScalarMeta.registered)
      (timing'.map MetricMeta.registered ++ scalars'.map ScalarMeta.registered))
    (hnodup : (timing.map MetricMeta.key).Nodup) (hnodup' : (timing'.map MetricMeta.key).Nodup)
    (counter : Counter) :
    (timing.map (fun m => (m.views, (counter.read memory m.item).toNat))).Perm
      (timing'.map (fun m => (m.views, (counter.read memory' m.item).toNat))) := by
  refine map_data_perm hnodup hnodup' (fun key => ?_) (fun m hm m' hm' hkey => ?_)
  · rw [← mem_timing_keys timing scalars, ← mem_timing_keys timing' scalars', h.keys]
  · obtain ⟨hvalue, hcontents⟩ := h.same m.registered
      (List.mem_append_left _ (List.mem_map_of_mem hm)) m'.registered
      (List.mem_append_left _ (List.mem_map_of_mem hm')) (congrArg StoreKey.timing hkey)
    have hread : counter.read memory m.item = counter.read memory' m'.item :=
      congrFun hcontents counter.field
    rw [views_congr (Metadata.timing.inj hvalue), hread]

/-- The same for scalar slots: views, counts and levels. -/
theorem Alike.scalars_perm (h : Alike memory memory'
      (timing.map MetricMeta.registered ++ scalars.map ScalarMeta.registered)
      (timing'.map MetricMeta.registered ++ scalars'.map ScalarMeta.registered))
    (hnodup : (scalars.map ScalarMeta.key).Nodup) (hnodup' : (scalars'.map ScalarMeta.key).Nodup)
    (counter : Counter) :
    (scalars.map (fun m => (m.view, (m.source_item.count memory counter).toNat,
        (m.source_item.level memory).toInt))).Perm
      (scalars'.map (fun m => (m.view, (m.source_item.count memory' counter).toNat,
        (m.source_item.level memory').toInt))) := by
  refine map_data_perm hnodup hnodup' (fun key => ?_) (fun m hm m' hm' hkey => ?_)
  · rw [← mem_scalar_keys timing scalars, ← mem_scalar_keys timing' scalars', h.keys]
  · obtain ⟨hvalue, hcontents⟩ := h.same m.registered
      (List.mem_append_right _ (List.mem_map_of_mem hm)) m'.registered
      (List.mem_append_right _ (List.mem_map_of_mem hm')) (congrArg StoreKey.scalar hkey)
    have hread : memory (.scalar m.item) = memory' (.scalar m'.item) := congrFun hcontents .count
    obtain ⟨name, resource, kind, mode, item⟩ := m
    obtain ⟨name', resource', kind', mode', item'⟩ := m'
    obtain ⟨rfl, rfl, rfl, rfl⟩ := Metadata.scalar.inj hvalue
    cases mode <;>
      simp only [source_item_eq, SourceItem.count, SourceItem.level, ScalarPtr.read, hread] <;> rfl

/-- Whatever is summed over the slots of a view depends on the content only. -/
theorem Alike.sum_view (h : Alike memory memory'
      (timing.map MetricMeta.registered ++ scalars.map ScalarMeta.registered)
      (timing'.map MetricMeta.registered ++ scalars'.map ScalarMeta.registered))
    (hnodup : (timing.map MetricMeta.key).Nodup) (hnodup' : (timing'.map MetricMeta.key).Nodup)
    (hscalars : (scalars.map ScalarMeta.key).Nodup) (hscalars' : (scalars'.map ScalarMeta.key).Nodup)
    {M : Type} [AddCommMonoid M] (counter : Counter) (view : View) (v : ℕ → ℤ → M) :
    ((view_items timing scalars view).map (fun item =>
        v (item.count memory counter).toNat (item.level memory).toInt)).sum
      = ((view_items timing' scalars' view).map (fun item =>
        v (item.count memory' counter).toNat (item.level memory').toInt)).sum := by
  have htiming := sum_data_eq (h.timing_perm hnodup hnodup' counter)
    (fun d : List View × ℕ => view ∈ d.1) (fun d => v d.2 0)
  have hscalar := sum_data_eq (h.scalars_perm hscalars hscalars' counter)
    (fun d : View × ℕ × ℤ => d.1 = view) (fun d => v d.2.1 d.2.2)
  rw [view_items, view_items, List.map_append, List.map_append, List.sum_append, List.sum_append,
    List.map_map, List.map_map, List.map_map, List.map_map]
  exact congrArg₂ (· + ·) htiming hscalar

end Content

/-! ## Lines from content -/

section Lines

variable (memory : Memory) (timing : List MetricMeta) (scalars : List ScalarMeta)

/-- A group lists the slots of its view in some order. -/
theorem group_perm {timing : List MetricMeta} {scalars : List ScalarMeta}
    (htiming : (timing.map MetricMeta.item).Nodup) (hscalars : (scalars.map ScalarMeta.item).Nodup)
    {layout : Layout} {family : Family} {g : View × List SourceItem}
    (hg : g ∈ family_groups (kept layout (captured timing scalars)) family) :
    g.2.Perm (view_items timing scalars g.1) := by
  obtain ⟨hnodup, hslots⟩ := group_items layout _ family g hg
  rw [← toFinset_view_items] at hslots
  exact List.perm_of_nodup_nodup_toFinset_eq hnodup (view_items_nodup htiming hscalars g.1) hslots

/-- The value of a view's sample: the exact total cut off once, or the exact sum of the gauges. -/
def view_value (family : Family) (view : View) : Decimal :=
  let count := ((view_items timing scalars view).map (fun item =>
    (item.count memory family.counter).toNat)).sum
  let level := ((view_items timing scalars view).map (fun item => (item.level memory).toInt)).sum
  let word := UInt64.ofNat (min U64_MAX count)
  if family.is_gauge then Decimal.ofInt level
  else if family.seconds then Decimal.ofHundredths (PrometheusReader.hundredths word).toNat
  else Decimal.ofNat word.toNat

variable {memory timing scalars}

/-- A group's sample does not depend on the order of its slots. -/
theorem group_entry (htiming : (timing.map MetricMeta.item).Nodup)
    (hscalars : (scalars.map ScalarMeta.item).Nodup) {layout : Layout} {family : Family}
    {g : View × List SourceItem}
    (hg : g ∈ family_groups (kept layout (captured timing scalars)) family)
    (hfits : family.is_gauge = true →
      ((view_items timing scalars g.1).map (fun item => |(item.level memory).toInt|)).sum ≤ I64_MAX) :
    (Line.group family g.1 g.2).entry memory
      = .sample family.name g.1.labels (view_value memory timing scalars family g.1) := by
  have hperm := group_perm htiming hscalars hg
  -- a counter adds up to the sum cut off, in any order
  have hword : group_value memory family.counter g.2 = UInt64.ofNat (min U64_MAX
      ((view_items timing scalars g.1).map (fun item =>
        (item.count memory family.counter).toNat)).sum) := by
    refine UInt64.toNat_inj.mp ?_
    rw [group_value_toNat, (hperm.map _).sum_eq, UInt64.toNat_ofNat_of_lt']
    have hle := min_le_left U64_MAX ((view_items timing scalars g.1).map (fun item =>
      (item.count memory family.counter).toNat)).sum
    unfold U64_MAX at hle ⊢
    simp only [UInt64.size]
    omega
  rw [Line.entry, sample_value, view_value, hword]
  by_cases hgauge : family.is_gauge = true
  · -- a gauge is clamped at every step, but here it never comes to that
    have hsum := (hperm.map (fun item => |(item.level memory).toInt|)).sum_eq
    have hlevel : (group_gauge memory g.2).toInt
        = ((view_items timing scalars g.1).map (fun item => (item.level memory).toInt)).sum := by
      rw [group_gauge, foldl_saturating_add_i64 (SourceItem.level memory) g.2 0
        (by rw [hsum]; simpa using hfits hgauge), (hperm.map _).sum_eq]
      exact zero_add _
    rw [if_pos hgauge, if_pos hgauge, hlevel]
  · rw [if_neg hgauge, if_neg hgauge]

/-- The entries of a reader's output, from the views it captured and the content. -/
theorem exposition_entries (htiming : (timing.map MetricMeta.item).Nodup)
    (hscalars : (scalars.map ScalarMeta.item).Nodup) (layout : Layout)
    (hfits : ∀ family, ∀ g ∈ family_groups (kept layout (captured timing scalars)) family,
      family.is_gauge = true →
      ((view_items timing scalars g.1).map (fun item => |(item.level memory).toInt|)).sum ≤ I64_MAX)
    (f64 : F64) (states : List StateSnapshot) :
    (exposition f64 (kept layout (captured timing scalars)) states).map (Line.entry memory)
      = ((List.finRange FAMILIES.length).flatMap (fun family =>
          Entry.type family.name family.mode
            :: ((family_groups (kept layout (captured timing scalars)) family).map Prod.fst).map
              (fun view =>
                .sample family.name view.labels (view_value memory timing scalars family view))))
        ++ (state_type :: state_lines f64 states).map (Line.entry Memory.zero) := by
  -- the states are not read from memory
  have hstates : (state_type :: state_lines f64 states).map (Line.entry memory)
      = (state_type :: state_lines f64 states).map (Line.entry Memory.zero) := by
    refine List.map_congr_left (fun line hline => ?_)
    rcases List.mem_cons.mp hline with rfl | hline
    · rfl
    · obtain ⟨snapshot, field, value, rfl⟩ := mem_state_lines hline
      rfl
  rw [exposition, parts_from_zero, List.map_append, List.map_flatMap, hstates]
  refine congrArg (· ++ _) (List.flatMap_congr (fun family _ => ?_))
  rw [List.map_cons, List.map_map, List.map_map]
  refine congrArg₂ List.cons rfl (List.map_congr_left (fun g hg => ?_))
  exact group_entry htiming hscalars hg (hfits family g hg)

end Lines

/-- The groups of a family ascend by view. -/
theorem family_groups_pairwise (layout : Layout) (sources : List Source) (family : Family) :
    ((family_groups (kept layout sources) family).map Prod.fst).Pairwise (· < ·) := by
  have hstrict := groups_pairwise Source.view (kept layout sources) (kept_views layout sources)
  rw [family_groups, List.map_map]
  exact hstrict.sublist ((List.filter_sublist).map _)

/-- Registries of the same content capture the same views. -/
theorem Alike.captured_iff {memory memory' : Memory} {timing timing' : List MetricMeta}
    {scalars scalars' : List ScalarMeta} (h : Alike memory memory'
      (timing.map MetricMeta.registered ++ scalars.map ScalarMeta.registered)
      (timing'.map MetricMeta.registered ++ scalars'.map ScalarMeta.registered))
    (hnodup : (timing.map MetricMeta.key).Nodup) (hnodup' : (timing'.map MetricMeta.key).Nodup)
    (hscalars : (scalars.map ScalarMeta.key).Nodup) (hscalars' : (scalars'.map ScalarMeta.key).Nodup)
    (view : View) :
    (∃ s ∈ captured timing scalars, s.view = view)
      ↔ ∃ s ∈ captured timing' scalars', s.view = view := by
  -- the lists of views are those of the contents, for whichever counter
  have htiming := (h.timing_perm hnodup hnodup' .Total).map Prod.fst
  have hscalar := (h.scalars_perm hscalars hscalars' .Total).map Prod.fst
  rw [List.map_map, List.map_map] at htiming hscalar
  rw [exists_captured, exists_captured]
  refine or_congr ?_ ?_
  · have hmem : ∀ {timing : List MetricMeta}, (∃ m ∈ timing, view ∈ m.views)
        ↔ ∃ views ∈ timing.map MetricMeta.views, view ∈ views := by simp
    rw [hmem, hmem]
    exact exists_congr (fun views => and_congr_left (fun _ => htiming.mem_iff))
  · have hmem : ∀ {scalars : List ScalarMeta}, (∃ m ∈ scalars, m.view = view)
        ↔ view ∈ scalars.map ScalarMeta.view := by simp
    rw [hmem, hmem]
    exact hscalar.mem_iff

theorem Registry.Inv.entries_eq {r : Registry} {logs : Fin SHARD_COUNT → List MetricMeta}
    {scalars : Fin SHARD_COUNT → List ScalarMeta} (h : r.Inv logs scalars) :
    r.entries = some ((flat logs).map MetricMeta.registered
      ++ (flat scalars).map ScalarMeta.registered) := by
  rw [entries, h.for_each_meta, h.scalars.for_each]
  rfl

/-- The exposition depends only on logical content. Take any two registries that hold the same
keys, each with the same metadata and the same values, and the same states, but were built by other
calls in another order, with other hash functions and slots at other addresses and hash maps
iterated in other orders. If in no merged gauge the absolute values total more than `i64::MAX`, then
readers built on them write the same bytes. -/
theorem History.output_canonical (history history' : History) (n n' : ℕ) (memory memory' : Memory)
    (layout layout' : Layout) (order order' : IterOrder) (f64 : F64)
    {entries entries' : List Registered} {reader : PrometheusReader}
    (hentries : (history.registry n).entries = some entries)
    (hentries' : (history'.registry n').entries = some entries')
    (halike : Alike memory memory' entries entries')
    (hget : ∀ identity key, (history.registry n).states.get identity key
      = (history'.registry n').states.get identity key)
    (hrecorded : ∀ identity, (history.registry n).states.recorded identity
      ↔ (history'.registry n').states.recorded identity)
    (hreader : PrometheusReader.from_registry layout order (history.registry n) = some reader)
    (hgauges : ∀ (family : Family) view items, family.is_gauge = true →
      Line.group family view items ∈ reader.lines f64 →
      (items.map (fun item => |(item.level memory).toInt|)).sum ≤ I64_MAX) :
    ∃ reader' bs,
      PrometheusReader.from_registry layout' order' (history'.registry n') = some reader'
      ∧ Streams f64 (fun _ => memory) 0 reader bs
      ∧ Streams f64 (fun _ => memory') 0 reader' bs := by
  obtain ⟨logs, scalars, store, hreached⟩ := history.reached n
  obtain ⟨logs', scalars', store', hreached'⟩ := history'.reached n'
  have hinv := hreached.represents.inv
  have hinv' := hreached'.represents.inv
  obtain rfl := Option.some.inj (hentries.symm.trans hinv.entries_eq)
  obtain rfl := Option.some.inj (hentries'.symm.trans hinv'.entries_eq)
  obtain rfl := Option.some.inj
    ((PrometheusReader.from_registry_eq hinv layout order).symm.trans hreader)
  have hviews : ∀ family,
      (family_groups (kept layout (captured (flat logs) (flat scalars))) family).map Prod.fst
        = (family_groups (kept layout' (captured (flat logs') (flat scalars'))) family).map
            Prod.fst := by
    intro family
    refine eq_of_pairwise_lt (family_groups_pairwise layout _ family)
      (family_groups_pairwise layout' _ family) (fun view => ?_)
    rw [mem_family_groups, mem_family_groups, halike.captured_iff hinv.keys_nodup hinv'.keys_nodup
      hinv.scalars.keys_nodup hinv'.scalars.keys_nodup]
  have hsum : ∀ {M : Type} [AddCommMonoid M] (counter : Counter) (view : View) (v : ℕ → ℤ → M), _ :=
    fun counter view v => halike.sum_view hinv.keys_nodup hinv'.keys_nodup hinv.scalars.keys_nodup
      hinv'.scalars.keys_nodup counter view v
  have hvalues : ∀ family view, view_value memory (flat logs) (flat scalars) family view
      = view_value memory' (flat logs') (flat scalars') family view := by
    intro family view
    rw [view_value, view_value, hsum family.counter view (fun count _ => count),
      hsum family.counter view (fun _ level => level)]
  -- the gauges stay in range in either registry
  have hfits : ∀ family, ∀ g ∈ family_groups (kept layout (captured (flat logs) (flat scalars))) family,
      family.is_gauge = true → ((view_items (flat logs) (flat scalars) g.1).map
        (fun item => |(item.level memory).toInt|)).sum ≤ I64_MAX := by
    intro family g hg hgauge
    rw [← ((group_perm hinv.items_nodup hinv.scalars.items_nodup hg).map _).sum_eq]
    refine hgauges family g.1 g.2 hgauge ?_
    rw [PrometheusReader.lines_start]
    exact mem_exposition_group.mpr hg
  have hfits' : ∀ family,
      ∀ g ∈ family_groups (kept layout' (captured (flat logs') (flat scalars'))) family,
      family.is_gauge = true → ((view_items (flat logs') (flat scalars') g.1).map
        (fun item => |(item.level memory').toInt|)).sum ≤ I64_MAX := by
    intro family g hg hgauge
    obtain ⟨g', hg', hview⟩ := List.mem_map.mp ((hviews family).symm ▸ List.mem_map_of_mem hg)
    rw [← hsum family.counter g.1 (fun _ level => |level|), ← hview]
    exact hfits family g' hg' hgauge
  have hstates := StateRegistry.snapshot_congr hget hrecorded order order'
  refine ⟨_, _, PrometheusReader.from_registry_eq hinv' layout' order', streams_start layout _ _, ?_⟩
  have hbytes : entries (fun _ => memory) 0
        (exposition f64 (kept layout (captured (flat logs) (flat scalars)))
          ((history.registry n).state_snapshot order))
      = entries (fun _ => memory') 0
        (exposition f64 (kept layout' (captured (flat logs') (flat scalars')))
          ((history'.registry n').state_snapshot order')) := by
    rw [entries_const, entries_const,
      exposition_entries hinv.items_nodup hinv.scalars.items_nodup layout hfits,
      exposition_entries hinv'.items_nodup hinv'.scalars.items_nodup layout' hfits']
    simp only [hviews, hvalues, Registry.state_snapshot, hstates]
  rw [hbytes]
  exact streams_start layout' _ _

/-- A process with a timing slot and a gauge. -/
def deployed : History := .sequential ⟨fun _ => 0⟩ ⟨fun _ => 0⟩
  [.redis "cache", .gauge_new .Log "queue"]

/-- The same with other hash functions and in another order. -/
def redeployed : History := .sequential ⟨fun _ => 1⟩ ⟨fun _ => 2⟩
  [.gauge_new .Log "queue", .redis "cache"]

/-- Their entries, in whichever shards they are. -/
def deployment (timing scalar : Fin SHARD_COUNT) : List Registered := [
  ⟨.timing (.named "cache" (.Redis .Req)), .timing (.Single "cache" (.Redis .Req)),
    .timing ⟨timing, 0, 0⟩⟩,
  ⟨.scalar (.named .Log .Gauge "queue"), .scalar "queue" none .Log .Gauge,
    .scalar ⟨scalar, 0, 0⟩⟩]

/-- Five requests, in the timing slot of a shard. -/
def counted (shard : Fin SHARD_COUNT) : Memory :=
  Function.update Memory.zero (.slot ⟨shard, 0, 0⟩ .count) 5

theorem redeployed_output : ∃ reader reader' bs,
    PrometheusReader.from_registry .in_order .stored (deployed.registry 2) = some reader
    ∧ PrometheusReader.from_registry .in_order .stored (redeployed.registry 2) = some reader'
    ∧ Streams .unread (fun _ => counted ⟨0, by decide⟩) 0 reader bs
    ∧ Streams .unread (fun _ => counted ⟨1, by decide⟩) 0 reader' bs := by
  obtain ⟨logs, scalars, store, hreached⟩ := deployed.reached 2
  have hreader := PrometheusReader.from_registry_eq hreached.represents.inv .in_order .stored
  have hentries : (deployed.registry 2).entries
      = some (deployment ⟨0, by decide⟩ ⟨0, by decide⟩) := rfl
  have hentries' : (redeployed.registry 2).entries
      = some (deployment ⟨1, by decide⟩ ⟨2, by decide⟩) := rfl
  have halike : Alike (counted ⟨0, by decide⟩) (counted ⟨1, by decide⟩)
      (deployment ⟨0, by decide⟩ ⟨0, by decide⟩) (deployment ⟨1, by decide⟩ ⟨2, by decide⟩) := {
    keys := fun _ => Iff.rfl
    same := by
      intro e he e' he' hkey
      rcases List.mem_pair.mp he with rfl | rfl <;> rcases List.mem_pair.mp he' with rfl | rfl
      · exact ⟨rfl, funext (fun field => by cases field <;> rfl)⟩
      · exact StoreKey.noConfusion hkey
      · exact StoreKey.noConfusion hkey
      · exact ⟨rfl, rfl⟩ }
  obtain ⟨reader', bs, hreader', hstream, hstream'⟩ := History.output_canonical deployed redeployed
    2 2 _ _ .in_order .in_order .stored .stored .unread hentries hentries' halike
    (fun _ _ => rfl) (fun _ => Iff.rfl) hreader (by
      intro family view items _ _
      -- the gauge was never set
      refine (List.sum_eq_zero (fun x hx => ?_)).trans_le (by decide)
      obtain ⟨item, -, rfl⟩ := List.mem_map.mp hx
      cases item <;> rfl)
  exact ⟨_, reader', bs, hreader, hreader', hstream, hstream'⟩

end BrzMetrics
