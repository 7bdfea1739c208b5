/-
The views of registered slots.

What a reader captures for a slot depends on the slot's metadata alone: a timing
entry has a list of views (`MetricMeta.views`), a scalar entry exactly one
(`ScalarMeta.view`). A view may be listed more than once for one slot, by
repeated aliases, but the exact total of a view counts every slot once, so it is
a sum over the entries that have the view (`exact_total_captured`).

Views are grouped by output and kind while samples only show labels. What makes
the two agree is `View.Consistent`, which every path of the capture establishes
for itself: exact response codes and timeouts are of type `API`, and a view of
that type never supports all six timing families.
-/
import BrzMetrics.Stream
import BrzMetrics.History

set_option autoImplicit false

namespace BrzMetrics

/-! ## What is captured for an entry -/

/-- The views of a timing slot, in the order in which they are captured. -/
def MetricMeta.views (self : MetricMeta) : List View := (Source.of_metric self).map Source.view

/-- The view of a scalar slot. -/
def ScalarMeta.view (self : ScalarMeta) : View := (Source.of_scalar self).view

/-- A scalar slot as the item of its source. -/
def ScalarMeta.source_item (self : ScalarMeta) : SourceItem := (Source.of_scalar self).item

/-- All sources of a timing entry read its slot. -/
theorem item_of_metric {entry : MetricMeta} :
    ∀ s ∈ Source.of_metric entry, s.item = .Timing entry.item := by
  obtain ⟨item, profile⟩ := entry
  intro s hs
  cases profile with
  | Single name kind => rw [List.mem_singleton.mp hs]
  | Resource labels kind => rw [List.mem_singleton.mp hs]
  | Fanout plan =>
    rcases List.mem_append.mp hs with hs | hs
    · obtain ⟨output, -, rfl⟩ := List.mem_map.mp hs
      rfl
    · cases haggregate : plan.aggregate with
      | none => rw [haggregate] at hs; exact absurd hs List.not_mem_nil
      | some output => rw [haggregate] at hs; rw [List.mem_singleton.mp hs]

/-- A plan is captured as its outputs, the aggregate last. -/
theorem MetricMeta.views_fanout (item : ItemPtr) (plan : ProfilePlan) :
    (MetricMeta.mk item (.Fanout plan)).views
      = (plan.outputs ++ plan.aggregate.toList).map
          (fun output => ⟨output, profile_kind output⟩) := by
  rw [views, Source.of_metric, List.map_append, List.map_append, List.map_map]
  cases plan.aggregate <;> rfl

/-- The views depend on the profile only. -/
theorem views_congr {a b : MetricMeta} (h : a.profile = b.profile) : a.views = b.views := by
  obtain ⟨item, profile⟩ := a
  obtain ⟨item', profile'⟩ := b
  obtain rfl : profile = profile' := h
  cases profile with
  | Single name kind => rfl
  | Resource labels kind => rfl
  | Fanout plan => rw [MetricMeta.views_fanout, MetricMeta.views_fanout]

/-- The slots of a view are those of the entries that have it. -/
theorem mem_view_slots_captured {timing : List MetricMeta} {scalars : List ScalarMeta}
    {view : View} {item : SourceItem} :
    item ∈ view_slots (captured timing scalars) view
      ↔ (∃ m ∈ timing, view ∈ m.views ∧ item = .Timing m.item)
        ∨ ∃ m ∈ scalars, m.view = view ∧ item = m.source_item := by
  rw [mem_view_slots]
  constructor
  · rintro ⟨s, hs, hview, rfl⟩
    rcases List.mem_append.mp hs with hs | hs
    · obtain ⟨m, hm, hs⟩ := List.mem_flatMap.mp hs
      exact .inl ⟨m, hm, hview ▸ List.mem_map_of_mem hs, item_of_metric s hs⟩
    · obtain ⟨m, hm, rfl⟩ := List.mem_map.mp hs
      exact .inr ⟨m, hm, hview, rfl⟩
  · rintro (⟨m, hm, hview, rfl⟩ | ⟨m, hm, hview, rfl⟩)
    · obtain ⟨s, hs, rfl⟩ := List.mem_map.mp hview
      exact ⟨s, List.mem_append_left _ (List.mem_flatMap.mpr ⟨m, hm, hs⟩), rfl, item_of_metric s hs⟩
    · exact ⟨_, List.mem_append_right _ (List.mem_map_of_mem hm), hview, rfl⟩

/-- A view is captured when an entry has it. -/
theorem exists_captured {timing : List MetricMeta} {scalars : List ScalarMeta} {view : View} :
    (∃ s ∈ captured timing scalars, s.view = view)
      ↔ (∃ m ∈ timing, view ∈ m.views) ∨ ∃ m ∈ scalars, m.view = view := by
  constructor
  · rintro ⟨s, hs, hview⟩
    rcases (mem_view_slots_captured.mp ((mem_view_slots _).mpr ⟨s, hs, hview, rfl⟩)) with
      ⟨m, hm, hv, -⟩ | ⟨m, hm, hv, -⟩
    · exact .inl ⟨m, hm, hv⟩
    · exact .inr ⟨m, hm, hv⟩
  · intro h
    have hitem : ∃ item, item ∈ view_slots (captured timing scalars) view := by
      rcases h with ⟨m, hm, hv⟩ | ⟨m, hm, hv⟩
      · exact ⟨_, mem_view_slots_captured.mpr (.inl ⟨m, hm, hv, rfl⟩)⟩
      · exact ⟨_, mem_view_slots_captured.mpr (.inr ⟨m, hm, hv, rfl⟩)⟩
    obtain ⟨item, hitem⟩ := hitem
    obtain ⟨s, hs, hv, -⟩ := (mem_view_slots _).mp hitem
    exact ⟨s, hs, hv⟩

/-! ## Totals of a view -/

section Total

variable {timing : List MetricMeta} {scalars : List ScalarMeta}

/-- The slots of a view, entry by entry. -/
def view_items (timing : List MetricMeta) (scalars : List ScalarMeta) (view : View) :
    List SourceItem :=
  (timing.filter (fun m => view ∈ m.views)).map (fun m => .Timing m.item)
    ++ (scalars.filter (fun m => m.view = view)).map ScalarMeta.source_item

theorem toFinset_view_items (view : View) :
    (view_items timing scalars view).toFinset = view_slots (captured timing scalars) view := by
  ext item
  rw [mem_view_slots_captured, view_items, List.mem_toFinset, List.mem_append]
  simp only [List.mem_map, List.mem_filter, decide_eq_true_eq, and_assoc]
  constructor
  · rintro (⟨m, hm, hview, rfl⟩ | ⟨m, hm, hview, rfl⟩)
    · exact .inl ⟨m, hm, hview, rfl⟩
    · exact .inr ⟨m, hm, hview, rfl⟩
  · rintro (⟨m, hm, hview, rfl⟩ | ⟨m, hm, hview, rfl⟩)
    · exact .inl ⟨m, hm, hview, rfl⟩
    · exact .inr ⟨m, hm, hview, rfl⟩

theorem source_item_eq (m : ScalarMeta) :
    m.source_item = match m.mode with
      | .Counter => .Counter m.item
      | .Gauge => .Gauge m.item := rfl

/-- A scalar slot is the item of one source only. -/
theorem source_item_inj {a b : ScalarMeta} (h : a.source_item = b.source_item) :
    a.item = b.item := by
  rw [source_item_eq, source_item_eq] at h
  cases ha : a.mode <;> cases hb : b.mode <;> rw [ha, hb] at h
  · exact SourceItem.Counter.inj h
  · exact SourceItem.noConfusion h
  · exact SourceItem.noConfusion h
  · exact SourceItem.Gauge.inj h

/-- Timing and scalar slots are never the same item. -/
theorem source_item_ne_timing (m : ScalarMeta) (item : ItemPtr) :
    m.source_item ≠ .Timing item := by
  rw [source_item_eq]
  cases m.mode <;> simp

/-- No slot of a view is listed twice. -/
theorem view_items_nodup (htiming : (timing.map MetricMeta.item).Nodup)
    (hscalars : (scalars.map ScalarMeta.item).Nodup) (view : View) :
    (view_items timing scalars view).Nodup := by
  have hleft : (timing.filter (fun m => view ∈ m.views)).Pairwise
      (fun a b => SourceItem.Timing a.item ≠ .Timing b.item) :=
    (List.pairwise_map.mp (htiming.sublist ((List.filter_sublist).map _))).imp
      (fun hne h => hne (SourceItem.Timing.inj h))
  have hright : (scalars.filter (fun m => m.view = view)).Pairwise
      (fun a b => a.source_item ≠ b.source_item) :=
    (List.pairwise_map.mp (hscalars.sublist ((List.filter_sublist).map _))).imp
      (fun hne h => hne (source_item_inj h))
  refine List.Nodup.append (List.pairwise_map.mpr hleft) (List.pairwise_map.mpr hright) ?_
  intro item hitem hitem'
  obtain ⟨m, -, rfl⟩ := List.mem_map.mp hitem
  obtain ⟨m', -, heq⟩ := List.mem_map.mp hitem'
  exact source_item_ne_timing m' m.item heq

/-- The exact total of a view, entry by entry: every slot counts once. -/
theorem exact_total_captured (htiming : (timing.map MetricMeta.item).Nodup)
    (hscalars : (scalars.map ScalarMeta.item).Nodup) (memory : Memory) (counter : Counter)
    (view : View) :
    exact_total memory counter (view_slots (captured timing scalars) view)
      = ((timing.filter (fun m => view ∈ m.views)).map
            (fun m => (counter.read memory m.item).toNat)).sum
        + ((scalars.filter (fun m => m.view = view)).map
            (fun m => (m.source_item.count memory counter).toNat)).sum := by
  rw [exact_total, ← toFinset_view_items, List.sum_toFinset _ (view_items_nodup htiming hscalars view),
    view_items, List.map_append, List.sum_append, List.map_map, List.map_map]
  rfl

end Total

/-! ## Consistent views -/

/-- What holds of every view, by whichever path it was captured. -/
structure View.Consistent (view : View) : Prop where
  named : ∀ labels ∈ view.output.resource, view.output.name = labels.name
  full : view.kind = .Full → view.output.metric_type ≠ "API"
  summary : view.kind = .ApiSummary → view.output.metric_type = "API"
  code : ∀ code, view.kind = .Api code →
    view.output.metric_type = "API" ∧ MetricType.valid_code code = true
  timeout : view.kind = .Timeout → view.output.metric_type = "API"

/-- Every kind but `ApiAll` is exported under another type. -/
theorem MetricType.output_ne_api {kind : MetricType} (h : kind ≠ .ApiAll) :
    kind.output.1 ≠ "API" := fun heq => h (kind.output_eq_api.mp heq)

/-- What a typed registration is exported as: its type, its kind, and that they fit. -/
theorem View.consistent_full {metric_type name : String} {resource : Option ResourceLabels}
    (htype : metric_type ≠ "API") (hnamed : ∀ labels ∈ resource, name = labels.name) :
    View.Consistent ⟨⟨metric_type, name, resource⟩, .Full⟩ where
  named := hnamed
  full := fun _ => htype
  summary := fun h => SourceKind.noConfusion h
  code := fun _ h => SourceKind.noConfusion h
  timeout := fun h => SourceKind.noConfusion h

/-- A view of type `API` with a kind of its own. -/
theorem View.consistent_api {name : String} {resource : Option ResourceLabels} {kind : SourceKind}
    (hfull : kind ≠ .Full) (hcode : ∀ code, kind = .Api code → MetricType.valid_code code = true)
    (hnamed : ∀ labels ∈ resource, name = labels.name) :
    View.Consistent ⟨⟨"API", name, resource⟩, kind⟩ where
  named := hnamed
  full := fun h => absurd h hfull
  summary := fun _ => rfl
  code := fun code h => ⟨rfl, hcode code h⟩
  timeout := fun _ => rfl

/-- The views of a checked timing entry are consistent. -/
theorem MetricMeta.views_consistent {entry : MetricMeta} (h : entry.profile.Checked) :
    ∀ view ∈ entry.views, view.Consistent := by
  obtain ⟨item, profile⟩ := entry
  intro view hview
  -- an output of a plan has no resource, and `API` is never exported in full
  have hplan : ∀ output : ProfileOutput, output.resource = none →
      View.Consistent ⟨output, profile_kind output⟩ := by
    rintro ⟨metric_type, name, resource⟩ hresource
    obtain rfl : resource = none := hresource
    by_cases htype : metric_type = "API"
    · subst htype
      exact View.consistent_api (by simp [profile_kind]) (by simp [profile_kind]) (by simp)
    · rw [profile_kind, if_neg htype]
      exact View.consistent_full htype (by simp)
  cases profile with
  | Single name kind =>
    rw [List.mem_singleton.mp hview]
    by_cases hall : kind = .ApiAll
    · subst hall
      exact View.consistent_api (by simp) (by simp) (by simp)
    · have htype := MetricType.output_ne_api hall
      cases kind with
      | Api code =>
        refine View.consistent_api (by simp) (fun code' hcode => ?_) (by simp)
        obtain rfl := SourceKind.Api.inj hcode
        exact MetricType.valid_of_rejection h.1
      | ApiTimeout => exact View.consistent_api (by simp) (by simp) (by simp)
      | ApiAll => exact absurd rfl hall
      | _ => exact View.consistent_full htype (by simp)
  | Resource labels kind =>
    rw [List.mem_singleton.mp hview]
    have hnamed : ∀ labels' ∈ some labels, labels.name = labels'.name :=
      fun labels' hlabels => by rw [Option.mem_some_iff.mp hlabels]
    by_cases hall : kind = .ApiAll
    · subst hall
      exact View.consistent_api (by simp) (by simp) hnamed
    · have htype := MetricType.output_ne_api hall
      cases kind with
      | Api code =>
        refine View.consistent_api (by simp) (fun code' hcode => ?_) hnamed
        obtain rfl := SourceKind.Api.inj hcode
        exact MetricType.valid_of_rejection h.1
      | ApiTimeout => exact View.consistent_api (by simp) (by simp) hnamed
      | ApiAll => exact absurd rfl hall
      | _ => exact View.consistent_full htype hnamed
  | Fanout plan =>
    rw [views_fanout] at hview
    obtain ⟨output, houtput, rfl⟩ := List.mem_map.mp hview
    rcases List.mem_append.mp houtput with houtput | haggregate
    · exact hplan output (plan.outputs_plain output houtput)
    · exact hplan output (plan.aggregate_plain output (Option.mem_toList.mp haggregate))

/-- Timing slots are in the six timing families only. -/
theorem MetricMeta.timing_family {entry : MetricMeta} {view : View} (hview : view ∈ entry.views)
    {family : ℕ} (hfamily : view.kind.supports family = true) : family < 6 := by
  obtain ⟨item, profile⟩ := entry
  -- a timing slot is exported in full, as a summary, or as the count of a response
  have hkind : (view.kind = .Full ∨ view.kind = .ApiSummary)
      ∨ (∃ code, view.kind = .Api code) ∨ view.kind = .Timeout := by
    have hplan : ∀ output : ProfileOutput, profile_kind output = .Full
        ∨ profile_kind output = .ApiSummary := by
      intro output
      unfold profile_kind
      split_ifs
      · exact .inr rfl
      · exact .inl rfl
    cases profile with
    | Single name kind | Resource labels kind =>
      rw [List.mem_singleton.mp hview]
      cases kind with
      | Api code => exact .inr (.inl ⟨code, rfl⟩)
      | ApiTimeout => exact .inr (.inr rfl)
      | ApiAll => exact .inl (.inr rfl)
      | _ => exact .inl (.inl rfl)
    | Fanout plan =>
      rw [views_fanout] at hview
      obtain ⟨output, -, rfl⟩ := List.mem_map.mp hview
      exact .inl (hplan output)
  -- none of these kinds supports a family from the seventh on
  rcases hkind with (h | h) | ⟨code, h⟩ | h <;> rw [h] at hfamily <;>
    simp [SourceKind.supports] at hfamily <;> omega

/-- The kinds that count responses, and what they are captured as. -/
def MetricType.response : MetricType → Option SourceKind
  | .Api code => some (.Api code)
  | .ApiTimeout => some .Timeout
  | .Log | .Redis _ | .Mysql _ | .Memcache _ | .McDetail | .Http _ | .HttpAll | .ApiAll | .Api3xx
  | .Api4xx | .Api5xx | .Rpc _ | .Service _ | .SocketIo _ | .RpcServiceWhole => none

/-- A response counter is captured as such; any other scalar goes to a family of its own. -/
theorem ScalarMeta.view_cases (m : ScalarMeta) :
    (∃ kind, m.mode = .Counter ∧ m.kind.response = some kind
      ∧ m.view = ⟨⟨"API", m.name, m.resource⟩, kind⟩)
    ∨ ((m.mode = .Gauge ∨ m.kind.response = none) ∧ ∃ metric_type,
      ∃ kind ∈ [SourceKind.ConnCounter, .Count, .ConnGauge, .Gauge],
        m.view = ⟨⟨metric_type, m.name, m.resource⟩, kind⟩) := by
  obtain ⟨name, resource, kind, mode, item⟩ := m
  -- connections have their own kinds, among counters and among gauges
  have hcounter : ∀ c : Bool, (if c then SourceKind.ConnCounter else .Count)
      ∈ [SourceKind.ConnCounter, .Count, .ConnGauge, .Gauge] := by
    intro c
    cases c <;> simp
  have hgauge : ∀ c : Bool, (if c then SourceKind.ConnGauge else .Gauge)
      ∈ [SourceKind.ConnCounter, .Count, .ConnGauge, .Gauge] := by
    intro c
    cases c <;> simp
  cases mode with
  | Counter =>
    have hkind := hcounter kind.is_conn
    cases kind with
    | Api code => exact .inl ⟨.Api code, rfl, rfl, rfl⟩
    | ApiTimeout => exact .inl ⟨.Timeout, rfl, rfl, rfl⟩
    | _ => exact .inr ⟨.inr rfl, _, _, hkind, rfl⟩
  | Gauge => exact .inr ⟨.inl rfl, _, _, hgauge kind.is_conn, rfl⟩

/-- The view of a checked scalar entry is consistent. -/
theorem ScalarMeta.view_consistent {entry : ScalarMeta} (h : entry.Checked) :
    entry.view.Consistent := by
  rcases entry.view_cases with ⟨kind, -, hresponse, hview⟩ | ⟨-, metric_type, kind, hkind, hview⟩
  · rw [hview]
    refine View.consistent_api ?_ (fun code hcode => ?_) h.named
    · rintro rfl
      cases hk : entry.kind <;> rw [hk] at hresponse <;> simp [MetricType.response] at hresponse
    · subst hcode
      cases hk : entry.kind <;> rw [hk] at hresponse <;>
        simp only [MetricType.response, Option.some.injEq, reduceCtorEq, SourceKind.Api.injEq]
          at hresponse
      subst hresponse
      exact MetricType.valid_of_rejection (hk ▸ h.kind)
  · rw [hview]
    simp only [List.mem_cons, List.not_mem_nil, or_false] at hkind
    rcases hkind with rfl | rfl | rfl | rfl
    all_goals exact ⟨h.named, by simp, by simp, by simp, by simp⟩

/-- Every captured view of a reachable registry is consistent. -/
theorem History.Reached.consistent {history : History} {n : ℕ}
    {logs : Fin SHARD_COUNT → List MetricMeta} {scalars : Fin SHARD_COUNT → List ScalarMeta}
    {store : KeyedStore.Store StoreKey Metadata SlotPtr}
    (h : history.Reached n logs scalars store) {view : View}
    (hview : ∃ s ∈ captured (flat logs) (flat scalars), s.view = view) : view.Consistent := by
  rcases exists_captured.mp hview with ⟨m, hm, hv⟩ | ⟨m, hm, rfl⟩
  · exact m.views_consistent (h.timing_checked m hm) view hv
  · exact m.view_consistent (h.scalar_checked m hm)

end BrzMetrics
