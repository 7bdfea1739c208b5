/-
`API` requests are counted once.

Exact response codes and timeouts are the only views of type `API` that support
`brz_req_total`; every other slot of that type is a summary of errors and
durations. So the request samples of a name add up slot by slot to what was
registered as a response (`sum_filter_fiber` regroups the sum from views to
slots), and nothing is in two of them.
-/
import BrzMetrics.Labels

set_option autoImplicit false

namespace BrzMetrics

open SortBy TextFormat

/-! ## Responses -/

/-- Exact codes and timeouts. -/
def SourceKind.is_response : SourceKind → Bool
  | .Api _ | .Timeout => true
  | .Full | .ApiSummary | .ConnCounter | .Count | .ConnGauge | .Gauge => false

/-- The view of a timing slot that is registered as a response, by itself or for a resource. -/
def MetricMeta.response (self : MetricMeta) : Option View :=
  match self.profile with
  | .Single name kind => kind.response.map (fun k => ⟨⟨"API", name, none⟩, k⟩)
  | .Resource labels kind => kind.response.map (fun k => ⟨⟨"API", labels.name, some labels⟩, k⟩)
  | .Fanout _ => none

/-- The view of a scalar counter that is registered as a response. -/
def ScalarMeta.response (self : ScalarMeta) : Option View :=
  match self.mode with
  | .Counter => self.kind.response.map (fun k => ⟨⟨"API", self.name, self.resource⟩, k⟩)
  | .Gauge => none

theorem MetricType.is_response_of_response {kind : MetricType} {k : SourceKind}
    (h : kind.response = some k) : k.is_response = true := by
  cases kind <;> simp [response] at h <;> subst h <;> rfl

/-- The view captured for a typed timing registration. -/
def typed_view (kind : MetricType) (name : String) (resource : Option ResourceLabels) : View :=
  (kind.response.map (fun k => ⟨⟨"API", name, resource⟩, k⟩)).getD
    ⟨⟨kind.output.1, name, resource⟩, if kind = .ApiAll then .ApiSummary else .Full⟩

/-- Of the typed views, the responses are those of response kinds. -/
theorem typed_view_response (kind : MetricType) (name : String) (resource : Option ResourceLabels)
    (view : View) :
    kind.response.map (fun k => (⟨⟨"API", name, resource⟩, k⟩ : View)) = some view
      ↔ view = typed_view kind name resource ∧ view.kind.is_response = true := by
  unfold typed_view
  cases hresponse : kind.response with
  | none =>
    simp only [Option.map_none, reduceCtorEq, Option.getD_none, false_iff, not_and]
    rintro rfl
    split_ifs <;> simp [SourceKind.is_response]
  | some k =>
    simp only [Option.map_some, Option.some.injEq, Option.getD_some]
    constructor
    · rintro rfl
      exact ⟨rfl, MetricType.is_response_of_response hresponse⟩
    · exact fun h => h.1.symm

theorem MetricMeta.views_single (item : ItemPtr) (name : String) (kind : MetricType) :
    (MetricMeta.mk item (.Single name kind)).views = [typed_view kind name none] := by
  cases kind <;> rfl

theorem MetricMeta.views_resource (item : ItemPtr) (labels : ResourceLabels) (kind : MetricType) :
    (MetricMeta.mk item (.Resource labels kind)).views
      = [typed_view kind labels.name (some labels)] := by
  cases kind <;> rfl

/-- A timing slot has a response view exactly when it is registered as that response. -/
theorem MetricMeta.response_iff (m : MetricMeta) (view : View) :
    m.response = some view ↔ view ∈ m.views ∧ view.kind.is_response = true := by
  obtain ⟨item, profile⟩ := m
  cases profile with
  | Single name kind =>
    rw [views_single, List.mem_singleton]
    exact typed_view_response kind name none view
  | Resource labels kind =>
    rw [views_resource, List.mem_singleton]
    exact typed_view_response kind labels.name (some labels) view
  | Fanout plan =>
    -- a profile is exported in full, or as a summary
    refine iff_of_false (by simp [response]) ?_
    rintro ⟨hview, hresponse⟩
    have hkind : ∀ output : ProfileOutput, (profile_kind output).is_response = false := by
      intro output
      unfold profile_kind
      split_ifs <;> rfl
    rw [views_fanout] at hview
    obtain ⟨output, -, rfl⟩ := List.mem_map.mp hview
    exact absurd hresponse (by simp [hkind])

/-- A scalar slot has a response view exactly when it is a counter registered as that response. -/
theorem ScalarMeta.response_iff (m : ScalarMeta) (view : View) :
    m.response = some view ↔ m.view = view ∧ view.kind.is_response = true := by
  rcases m.view_cases with ⟨kind, hmode, hresponse, hview⟩ | ⟨hnone, metric_type, kind, hkind, hview⟩
  · rw [hview, response, hmode, hresponse]
    simp only [Option.map_some, Option.some.injEq, iff_self_and]
    rintro rfl
    exact MetricType.is_response_of_response hresponse
  · have hother : kind.is_response = false := by
      simp only [List.mem_cons, List.not_mem_nil, or_false] at hkind
      rcases hkind with rfl | rfl | rfl | rfl <;> rfl
    refine iff_of_false ?_ ?_
    · rw [response]
      rcases hnone with hmode | hnone
      · rw [hmode]
        simp
      · rw [hnone]
        cases m.mode <;> simp
    · rintro ⟨rfl, h⟩
      rw [hview] at h
      exact absurd h (by simp [hother])

/-! ## From views to slots -/

/-- Summing over the values of a partial function, fibre by fibre, counts every element with a value
once. -/
theorem sum_filter_fiber {α β : Type} [DecidableEq β] (f : α → Option β) (c : α → ℕ) (l : List α)
    {V : List β} (hV : V.Nodup) :
    (V.map (fun v => ((l.filter (fun a => f a = some v)).map c).sum)).sum
      = ((l.filter (fun a => ∃ v ∈ V, f a = some v)).map c).sum := by
  induction V with
  | nil => simp
  | cons v V ih =>
    obtain ⟨hv, hV⟩ := List.nodup_cons.mp hV
    rw [List.map_cons, List.sum_cons, ih hV]
    clear ih
    -- one element at a time: it is in the fibre of `v`, or in one of the others, or in none
    induction l with
    | nil => rfl
    | cons a l ihl =>
      simp only [List.filter_cons, decide_eq_true_eq, List.mem_cons, exists_eq_or_imp] at ihl ⊢
      by_cases hav : f a = some v
      · have hother : ¬ ∃ w ∈ V, f a = some w := by
          rintro ⟨w, hw, hf⟩
          rw [hav, Option.some.injEq] at hf
          exact hv (hf ▸ hw)
        rw [if_pos hav, if_neg hother, if_pos (.inl hav)]
        simp only [List.map_cons, List.sum_cons]
        omega
      · rw [if_neg hav]
        by_cases hother : ∃ w ∈ V, f a = some w
        · rw [if_pos hother, if_pos (.inr hother)]
          simp only [List.map_cons, List.sum_cons]
          omega
        · rw [if_neg hother, if_neg (by rintro (h | h); exacts [hav h, hother h])]
          exact ihl

section Requests

variable {layout : Layout} {timing : List MetricMeta} {scalars : List ScalarMeta}

/-- The family of requests. -/
def requests_family : Family := ⟨0, by decide⟩

/-- The views of an output in the family of requests. -/
def request_views (layout : Layout) (timing : List MetricMeta) (scalars : List ScalarMeta)
    (output : ProfileOutput) : List View :=
  ((family_groups (kept layout (captured timing scalars)) requests_family).map Prod.fst).filter
    (fun view => view.output = output)

/-- They are the responses of that output that any slot is registered as. -/
theorem mem_request_views (h : ∀ view, (∃ s ∈ captured timing scalars, s.view = view) →
    view.Consistent) {output : ProfileOutput} (htype : output.metric_type = "API") (view : View) :
    view ∈ request_views layout timing scalars output
      ↔ (∃ s ∈ captured timing scalars, s.view = view) ∧ view.kind.is_response = true
        ∧ view.output = output := by
  rw [request_views, List.mem_filter, mem_family_groups, decide_eq_true_eq, and_assoc]
  refine and_congr_right (fun hcaptured => and_congr_left (fun houtput => ?_))
  have hconsistent := h view hcaptured
  have hfull : view.kind ≠ .Full := fun hk => hconsistent.full hk (by rw [houtput, htype])
  obtain ⟨output', kind⟩ := view
  cases kind <;> simp [SourceKind.supports, SourceKind.is_response, requests_family] at hfull ⊢

/-- The exact totals of the request views of an output are the counts of the slots registered as
its responses, each counted once. -/
theorem sum_request_views (hconsistent : ∀ view, (∃ s ∈ captured timing scalars, s.view = view) →
      view.Consistent)
    (htiming : (timing.map MetricMeta.item).Nodup) (hscalars : (scalars.map ScalarMeta.item).Nodup)
    (memory : Memory) {output : ProfileOutput} (htype : output.metric_type = "API") :
    ((request_views layout timing scalars output).map (fun view =>
        exact_total memory .Total (view_slots (captured timing scalars) view))).sum
      = ((timing.filter (fun m => m.response.map View.output = some output)).map
            (fun m => (Counter.Total.read memory m.item).toNat)).sum
        + ((scalars.filter (fun m => m.response.map View.output = some output)).map
            (fun m => (m.item.read memory).toNat)).sum := by
  have hmem : ∀ view, view ∈ request_views layout timing scalars output ↔ _ :=
    mem_request_views hconsistent htype
  have hnodup : (request_views layout timing scalars output).Nodup :=
    (family_groups_nodup layout _ requests_family).filter _
  -- on a response view, having it and being registered as it are the same
  have hview : ∀ view ∈ request_views layout timing scalars output,
      exact_total memory .Total (view_slots (captured timing scalars) view)
        = ((timing.filter (fun m => m.response = some view)).map
              (fun m => (Counter.Total.read memory m.item).toNat)).sum
          + ((scalars.filter (fun m => m.response = some view)).map
              (fun m => (m.source_item.count memory .Total).toNat)).sum := by
    intro view hv
    have hresponse := ((hmem view).mp hv).2.1
    rw [exact_total_captured htiming hscalars]
    congr 3
    · exact List.filter_congr (fun m _ => by simp [m.response_iff, hresponse])
    · exact List.filter_congr (fun m _ => by simp [m.response_iff, hresponse])
  rw [List.map_congr_left hview, List.sum_map_add, sum_filter_fiber _ _ _ hnodup,
    sum_filter_fiber _ _ _ hnodup]
  have hone : ∀ {α : Type} (response : α → Option View) (a : α),
      (∀ view, response a = some view → (∃ s ∈ captured timing scalars, s.view = view)
        ∧ view.kind.is_response = true) →
      ((∃ view ∈ request_views layout timing scalars output, response a = some view)
        ↔ (response a).map View.output = some output) := by
    intro α response a hcaptured
    constructor
    · rintro ⟨view, hv, hr⟩
      rw [hr, Option.map_some, ((hmem view).mp hv).2.2]
    · intro houtput
      obtain ⟨view, hr, ho⟩ := Option.map_eq_some_iff.mp houtput
      exact ⟨view, (hmem view).mpr ⟨(hcaptured view hr).1, (hcaptured view hr).2, ho⟩, hr⟩
  congr 1
  · refine congrArg (fun l => (List.map _ l).sum) (List.filter_congr (fun m hm => ?_))
    refine decide_eq_decide.mpr (hone MetricMeta.response m (fun view hr => ?_))
    obtain ⟨hv, hresponse⟩ := (m.response_iff view).mp hr
    exact ⟨exists_captured.mpr (.inl ⟨m, hm, hv⟩), hresponse⟩
  · have hfilter : scalars.filter (fun m =>
          ∃ view ∈ request_views layout timing scalars output, m.response = some view)
        = scalars.filter (fun m => m.response.map View.output = some output) := by
      refine List.filter_congr (fun m hm => ?_)
      refine decide_eq_decide.mpr (hone ScalarMeta.response m (fun view hr => ?_))
      obtain ⟨hv, hresponse⟩ := (m.response_iff view).mp hr
      exact ⟨exists_captured.mpr (.inr ⟨m, hm, hv⟩), hresponse⟩
    rw [hfilter]
    refine congrArg List.sum (List.map_congr_left (fun m hm => ?_))
    -- only counters are responses
    have hsome := (List.mem_filter.mp hm).2
    rw [source_item_eq]
    cases hmode : m.mode with
    | Counter => rfl
    | Gauge =>
      rw [ScalarMeta.response, hmode] at hsome
      simp at hsome

end Requests

/-! ## The samples -/

/-- The labels of an `API` output, without a status code. -/
def api_labels (name : String) (resource : Option ResourceLabels) : List (String × String) :=
  [("type", "API"), ("name", name)] ++ (resource.map ResourceLabels.labels).getD []

/-- What a line adds to the requests with the given labels, under whatever status code. -/
def requests_in (labels : List (String × String)) : Entry → ℕ
  | .type _ _ => 0
  | .sample name ls value =>
    if name = "brz_req_total" ∧ ls.filter (fun l => l.1 ≠ "status_code") = labels then value.int
    else 0

/-- Without their status codes, the labels of a view are those of its output. -/
theorem View.filter_labels (view : View) :
    view.labels.filter (fun l => l.1 ≠ "status_code")
      = [("type", view.output.metric_type), ("name", view.output.name)]
        ++ (view.output.resource.map ResourceLabels.labels).getD [] := by
  have hresource : ∀ l ∈ (view.output.resource.map ResourceLabels.labels).getD [],
      l.1 ≠ "status_code" := by
    rintro ⟨key, x⟩ hl
    cases hr : view.output.resource with
    | none => rw [hr] at hl; exact absurd hl List.not_mem_nil
    | some resource =>
      rw [hr] at hl
      rcases ResourceLabels.key_of_mem hl with rfl | rfl | rfl <;> simp
  have hkind : ∀ l ∈ view.kind.labels, ¬ l.1 ≠ "status_code" :=
    fun l hl => not_not.mpr (SourceKind.key_of_mem hl)
  have hplain : [("type", view.output.metric_type), ("name", view.output.name)].filter
      (fun l => l.1 ≠ "status_code")
      = [("type", view.output.metric_type), ("name", view.output.name)] := by simp
  rw [View.labels, List.filter_append, List.filter_append, hplain,
    List.filter_eq_self.mpr (fun l hl => decide_eq_true (hresource l hl)),
    List.filter_eq_nil_iff.mpr (fun l hl => by rw [decide_eq_true_eq]; exact hkind l hl),
    List.append_nil]

/-- The labels of an `API` output are those of a view exactly when it is the view's output. -/
theorem View.filter_labels_eq_api {view : View} {name : String}
    {resource : Option ResourceLabels} (hview : ∀ labels ∈ view.output.resource,
      view.output.name = labels.name) (hnamed : ∀ labels ∈ resource, name = labels.name) :
    view.labels.filter (fun l => l.1 ≠ "status_code") = api_labels name resource
      ↔ view.output = ⟨"API", name, resource⟩ := by
  have hother : api_labels name resource
      = (View.mk ⟨"API", name, resource⟩ .ApiSummary).labels.filter
          (fun l => l.1 ≠ "status_code") := by
    rw [View.filter_labels, api_labels]
  constructor
  · intro h
    rw [hother] at h
    refine View.output_of_labels (w := ⟨⟨"API", name, resource⟩, .ApiSummary⟩) hview hnamed
      (fun key x hkey => ?_)
    have hmem : ∀ labels : List (String × String),
        (key, x) ∈ labels ↔ (key, x) ∈ labels.filter (fun l => l.1 ≠ "status_code") :=
      fun labels => by simp [List.mem_filter, hkey]
    rw [hmem, h, ← hmem]
  · intro h
    rw [View.filter_labels, h]
    rfl

/-- The requests of an exposition are those of its first family. -/
theorem sum_requests_in (f64 : F64) (memory : Memory) (sources : List Source)
    (states : List StateSnapshot) (labels : List (String × String)) :
    (((exposition f64 sources states).map (Line.entry memory)).map (requests_in labels)).sum
      = ((family_groups sources requests_family).map (fun g =>
          if g.1.labels.filter (fun l => l.1 ≠ "status_code") = labels
          then (group_value memory .Total g.2).toNat else 0)).sum := by
  have hfamily : ∀ family : Family,
      -- names tell the families apart, so the others add nothing
      (((Line.type family.name family.mode
        :: (family_groups sources family).map (fun g => Line.group family g.1 g.2)).map
          (Line.entry memory)).map (requests_in labels)).sum
        = if family = requests_family then
            ((family_groups sources requests_family).map (fun g =>
              if g.1.labels.filter (fun l => l.1 ≠ "status_code") = labels
              then (group_value memory .Total g.2).toNat else 0)).sum
          else 0 := by
    intro family
    rw [List.map_cons, List.map_cons, List.sum_cons, List.map_map, List.map_map]
    split_ifs with h
    · subst h
      rw [show requests_in labels (Line.entry memory (.type requests_family.name
        requests_family.mode)) = 0 from rfl, Nat.zero_add]
      refine congrArg List.sum (List.map_congr_left (fun g _ => ?_))
      by_cases hlabels : g.1.labels.filter (fun l => l.1 ≠ "status_code") = labels
      · rw [if_pos hlabels]
        exact if_pos ⟨rfl, hlabels⟩
      · rw [if_neg hlabels]
        exact if_neg (fun hboth => hlabels hboth.2)
    · rw [show requests_in labels (Line.entry memory (.type family.name family.mode)) = 0 from rfl,
        Nat.zero_add]
      refine List.sum_eq_zero (fun x hx => ?_)
      obtain ⟨g, -, rfl⟩ := List.mem_map.mp hx
      exact if_neg (fun hboth => h (Family.name_injective hboth.1))
  have hstates : (((state_lines f64 states).map (Line.entry memory)).map
      (requests_in labels)).sum = 0 := by
    rw [List.map_map]
    refine List.sum_eq_zero (fun x hx => ?_)
    obtain ⟨line, hline, rfl⟩ := List.mem_map.mp hx
    obtain ⟨snapshot, field, value, rfl⟩ := mem_state_lines hline
    simp [requests_in, Line.entry]
  rw [exposition, parts_from_zero, List.map_append, List.map_append, List.sum_append,
    List.map_cons, List.map_cons, List.sum_cons, hstates, List.map_flatMap, List.map_flatMap,
    List.flatMap_def, List.sum_flatten, List.map_map]
  simp only [Function.comp_def, hfamily]
  rw [← Fin.sum_univ_def, Finset.sum_ite_eq' Finset.univ requests_family,
    if_pos (Finset.mem_univ _)]
  rfl

/-! ## A whole output -/

/-- The slots that are exported as `API` and are no responses: those of `ApiAll`, alone or for a
resource, and those a profile outputs, aliases or aggregates under that type. -/
inductive MetricMeta.Summarised (self : MetricMeta) (output : ProfileOutput) : Prop where
  | single (name : String) (hprofile : self.profile = .Single name .ApiAll)
      (houtput : output = ⟨"API", name, none⟩)
  | resource (labels : ResourceLabels) (hprofile : self.profile = .Resource labels .ApiAll)
      (houtput : output = ⟨"API", labels.name, some labels⟩)
  | fanout (plan : ProfilePlan) (hprofile : self.profile = .Fanout plan)
      (houtput : output ∈ plan.outputs ∨ plan.aggregate = some output)
      (htype : output.metric_type = "API")

/-- Such an output is captured as a summary, and not otherwise. -/
theorem MetricMeta.Summarised.views_iff {m : MetricMeta} {output : ProfileOutput}
    (h : m.Summarised output) (kind : SourceKind) :
    (⟨output, kind⟩ : View) ∈ m.views ↔ kind = .ApiSummary := by
  obtain ⟨item, profile⟩ := m
  cases h with
  | single name hprofile houtput =>
    obtain rfl : profile = .Single name .ApiAll := hprofile
    subst houtput
    exact List.mem_singleton.trans ⟨fun h => (View.mk.inj h).2, fun h => h ▸ rfl⟩
  | resource labels hprofile houtput =>
    obtain rfl : profile = .Resource labels .ApiAll := hprofile
    subst houtput
    exact List.mem_singleton.trans ⟨fun h => (View.mk.inj h).2, fun h => h ▸ rfl⟩
  | fanout plan hprofile houtput htype =>
    obtain rfl : profile = .Fanout plan := hprofile
    have hkind : profile_kind output = .ApiSummary := if_pos htype
    -- an output of a plan has the kind that its type has
    rw [views_fanout, List.mem_map]
    constructor
    · rintro ⟨output', -, heq⟩
      obtain ⟨rfl, rfl⟩ := View.mk.inj heq
      exact hkind
    · rintro rfl
      refine ⟨output, List.mem_append.mpr (houtput.imp_right Option.mem_toList.mpr), ?_⟩
      rw [hkind]

section Output

variable {layout : Layout} {timing : List MetricMeta} {scalars : List ScalarMeta}

/-- A summarised slot is in the five summary families under that output, and in no other. -/
theorem MetricMeta.Summarised.families {m : MetricMeta} {output : ProfileOutput}
    (h : m.Summarised output) (hm : m ∈ timing) (htiming : (timing.map MetricMeta.item).Nodup)
    (family : Family) :
    (∃ g ∈ family_groups (kept layout (captured timing scalars)) family,
        g.1.output = output ∧ SourceItem.Timing m.item ∈ g.2)
      ↔ 1 ≤ family.val ∧ family.val < 6 := by
  have hsupports : SourceKind.ApiSummary.supports family.val = true
      ↔ 1 ≤ family.val ∧ family.val < 6 := by
    simp [SourceKind.supports]
  constructor
  · rintro ⟨g, hg, houtput, hitem⟩
    obtain ⟨hcaptured, hkind⟩ :=
      (mem_family_groups layout _ family g.1).mp (List.mem_map_of_mem hg)
    rw [← List.mem_toFinset, (group_items layout _ family g hg).2,
      mem_view_slots_captured] at hitem
    rcases hitem with ⟨m', hm', hview, heq⟩ | ⟨m', -, -, heq⟩
    · -- only this slot's entry has the item
      obtain rfl := List.inj_on_of_nodup_map htiming hm hm' (SourceItem.Timing.inj heq)
      obtain ⟨⟨output', kind⟩, items⟩ := g
      obtain rfl : output' = output := houtput
      obtain rfl := (h.views_iff kind).mp hview
      exact hsupports.mp hkind
    · exact absurd heq.symm (source_item_ne_timing m' m.item)
  · intro hfamily
    -- the slot's view is captured, and has a group in each family that supports summaries
    have hview := (h.views_iff .ApiSummary).mpr rfl
    obtain ⟨g, hg, hfst⟩ := List.mem_map.mp
      ((mem_family_groups layout (captured timing scalars) family ⟨output, .ApiSummary⟩).mpr
        ⟨exists_captured.mpr (.inl ⟨m, hm, hview⟩), hsupports.mpr hfamily⟩)
    refine ⟨g, hg, congrArg View.output hfst, ?_⟩
    rw [← List.mem_toFinset, (group_items layout _ family g hg).2, mem_view_slots_captured, hfst]
    exact .inl ⟨m, hm, hview, rfl⟩

/-- Absent saturation, the requests of an `API` output are the exact totals of its views. -/
theorem sum_requests_captured (hconsistent : ∀ view,
      (∃ s ∈ captured timing scalars, s.view = view) → view.Consistent)
    (memory : Memory) {name : String} {resource : Option ResourceLabels}
    (hnamed : ∀ labels ∈ resource, name = labels.name)
    (hfits : ∀ kind, exact_total memory .Total
      (view_slots (captured timing scalars) ⟨⟨"API", name, resource⟩, kind⟩) ≤ U64_MAX)
    (f64 : F64) (states : List StateSnapshot) :
    (((exposition f64 (kept layout (captured timing scalars)) states).map
        (Line.entry memory)).map (requests_in (api_labels name resource))).sum
      = ((request_views layout timing scalars ⟨"API", name, resource⟩).map (fun view =>
          exact_total memory .Total (view_slots (captured timing scalars) view))).sum := by
  rw [sum_requests_in, request_views, List.filter_map, List.map_map, sum_map_ite]
  -- consistent views have these labels, whatever the code, exactly when they are of the output
  have hfilter : (family_groups (kept layout (captured timing scalars)) requests_family).filter
        (fun g => g.1.labels.filter (fun l => l.1 ≠ "status_code") = api_labels name resource)
      = (family_groups (kept layout (captured timing scalars)) requests_family).filter
        ((fun view => decide (view.output = ⟨"API", name, resource⟩)) ∘ Prod.fst) := by
    refine List.filter_congr (fun g hg => decide_eq_decide.mpr ?_)
    have hview := hconsistent g.1
      ((mem_family_groups layout _ _ g.1).mp (List.mem_map_of_mem hg)).1
    exact View.filter_labels_eq_api hview.named hnamed
  rw [hfilter]
  refine congrArg List.sum (List.map_congr_left (fun g hg => ?_))
  obtain ⟨hg, houtput⟩ := List.mem_filter.mp hg
  have hview : g.1 = ⟨⟨"API", name, resource⟩, g.1.kind⟩ := by
    rw [← of_decide_eq_true houtput]
  have htotal := group_value_kept layout (captured timing scalars) memory .Total requests_family g hg
  rw [htotal, Function.comp_apply, min_eq_right (hview ▸ hfits g.1.kind)]

end Output

/-- No request of type `API` is counted twice. Whatever was registered through the public functions,
and for any counter values: a sample of `brz_req_total` of that type has an exact code or `timeout`
as its status code, and no other sample has a status code; for every name and resource, if no group
saturates, the samples add up to the counts of the slots that are registered as responses with
these labels, each slot counted once; and a slot that is exported as `API` in any other way is in
the five families of errors, slow operations and durations, and in no other. -/
theorem History.api_requests_counted_once (history : History) (n : ℕ) (layout : Layout)
    (order : IterOrder) (f64 : F64) (memory : Memory) :
    ∃ timing scalars reader, ∃ lines : List Line, ∃ es : List Entry,
      (history.registry n).for_each_meta = some timing
      ∧ (history.registry n).scalars.for_each = some scalars
      ∧ PrometheusReader.from_registry layout order (history.registry n) = some reader
      ∧ Streams f64 (fun _ => memory) 0 reader (es.map Entry.encode)
      ∧ es = lines.map (Line.entry memory)
      ∧ (∀ labels value, Entry.sample "brz_req_total" labels value ∈ es →
          ("type", "API") ∈ labels → ∃ status, ("status_code", status) ∈ labels
            ∧ (status = "timeout" ∨ ∃ code : ℕ, 100 ≤ code ∧ code ≤ 599 ∧ status = toString code))
      ∧ (∀ name labels value status, Entry.sample name labels value ∈ es →
          ("status_code", status) ∈ labels → name = "brz_req_total" ∧ ("type", "API") ∈ labels)
      ∧ (∀ name resource, (∀ labels ∈ resource, name = ResourceLabels.name labels) →
          (∀ kind, exact_total memory .Total
            (view_slots (captured timing scalars) ⟨⟨"API", name, resource⟩, kind⟩) ≤ U64_MAX) →
          (es.map (requests_in (api_labels name resource))).sum
            = ((timing.filter (fun m =>
                  m.response.map View.output = some ⟨"API", name, resource⟩)).map
                (fun m => (Counter.Total.read memory m.item).toNat)).sum
              + ((scalars.filter (fun m =>
                  m.response.map View.output = some ⟨"API", name, resource⟩)).map
                (fun m => (m.item.read memory).toNat)).sum)
      ∧ (∀ m ∈ timing, ∀ output, m.Summarised output → ∀ family : Family,
          (∃ view items, Line.group family view items ∈ lines ∧ view.output = output
            ∧ SourceItem.Timing m.item ∈ items) ↔ 1 ≤ family.val ∧ family.val < 6) := by
  obtain ⟨logs, scalars, store, hreached⟩ := history.reached n
  have hinv := hreached.represents.inv
  have hconsistent : ∀ view : View, (∃ s ∈ captured (flat logs) (flat scalars), s.view = view) →
      view.Consistent := fun _ => hreached.consistent
  -- every labelled sample with a status code or of a family comes from a group
  have hsample : ∀ name labels value, Entry.sample name labels value
        ∈ (exposition f64 (kept layout (captured (flat logs) (flat scalars)))
            ((history.registry n).state_snapshot order)).map (Line.entry memory) →
      (∃ family : Family, ∃ view : View, name = family.name ∧ labels = view.labels ∧ view.Consistent
          ∧ view.kind.supports family.val = true)
        ∨ (name = "brz_rpc_state" ∧ ∃ snapshot : StateSnapshot, ∃ field,
            labels = snapshot.labels field) := by
    intro name labels value hmem
    obtain ⟨line, hline, heq⟩ := List.mem_map.mp hmem
    cases line with
    | type _ _ => exact Entry.noConfusion heq
    | group family view items =>
      obtain ⟨rfl, rfl, -⟩ := Entry.sample.inj heq
      obtain ⟨hcaptured, hkind⟩ := (mem_family_groups layout _ family view).mp
        (List.mem_map_of_mem (mem_exposition_group.mp hline))
      exact .inl ⟨family, view, rfl, rfl, hconsistent view hcaptured, hkind⟩
    | state snapshot field value' =>
      obtain ⟨rfl, rfl, -⟩ := Entry.sample.inj heq
      exact .inr ⟨rfl, snapshot, field, rfl⟩
  refine ⟨flat logs, flat scalars, _, exposition f64
      (kept layout (captured (flat logs) (flat scalars)))
      ((history.registry n).state_snapshot order), _, hinv.for_each_meta,
    hinv.scalars.for_each, PrometheusReader.from_registry_eq hinv layout order,
    streams_start layout _ _, entries_const _ _ _, ?_, ?_, ?_, ?_⟩
  · rw [entries_const]
    intro labels value hmem htype
    rcases hsample _ _ _ hmem with ⟨family, view, hname, rfl, hview, hkind⟩ | ⟨hname, -⟩
    · obtain rfl : requests_family = family := Family.name_injective hname
      have hapi := (view.mem_type "API").mp htype
      simp only [View.mem_status_code]
      cases hk : view.kind with
      | Api code =>
        refine ⟨toString code.toNat, by simp [SourceKind.labels], .inr ⟨code.toNat, ?_⟩⟩
        have hvalid := (hview.code code hk).2
        simp only [MetricType.valid_code, Bool.and_eq_true, decide_eq_true_eq] at hvalid
        exact ⟨hvalid.1, hvalid.2, rfl⟩
      | Timeout => exact ⟨"timeout", by simp [SourceKind.labels], .inl rfl⟩
      | Full => exact absurd hapi.symm (hview.full hk)
      | ApiSummary | ConnCounter | Count | ConnGauge | Gauge =>
        rw [hk] at hkind
        exact absurd hkind (by decide)
    · exact absurd hname (by decide)
  · rw [entries_const]
    intro name labels value status hmem hstatus
    rcases hsample _ _ _ hmem with ⟨family, view, rfl, rfl, hview, hkind⟩ | ⟨-, snapshot, field, rfl⟩
    · rw [View.mem_status_code] at hstatus
      -- only responses have a status code, and their family is the first
      have hresponse : (∃ code, view.kind = .Api code) ∨ view.kind = .Timeout := by
        cases hk : view.kind with
        | Api code => exact .inl ⟨code, rfl⟩
        | Timeout => exact .inr rfl
        | Full | ApiSummary | ConnCounter | Count | ConnGauge | Gauge =>
          rw [hk] at hstatus
          exact absurd hstatus List.not_mem_nil
      rcases hresponse with ⟨code, hk⟩ | hk
      · rw [hk] at hkind
        obtain rfl : family = requests_family := 
          Fin.ext (by simpa [SourceKind.supports, requests_family] using hkind)
        exact ⟨rfl, (view.mem_type _).mpr (hview.code code hk).1.symm⟩
      · rw [hk] at hkind
        obtain rfl : family = requests_family := 
          Fin.ext (by simpa [SourceKind.supports, requests_family] using hkind)
        exact ⟨rfl, (view.mem_type _).mpr (hview.timeout hk).symm⟩
    · simp [StateSnapshot.labels] at hstatus
  · rw [entries_const]
    intro name resource hnamed hfits
    rw [sum_requests_captured hconsistent memory hnamed hfits,
      sum_request_views hconsistent hinv.items_nodup hinv.scalars.items_nodup memory rfl]
  · intro m hm output houtput family
    have hfamilies : (∃ g ∈ family_groups (kept layout (captured (flat logs) (flat scalars))) family,
        g.1.output = output ∧ SourceItem.Timing m.item ∈ g.2) ↔ _ :=
      houtput.families hm hinv.items_nodup family
    rw [← hfamilies]
    constructor
    · rintro ⟨view, items, hline, hview, hitem⟩
      exact ⟨(view, items), mem_exposition_group.mp hline, hview, hitem⟩
    · rintro ⟨g, hg, hview, hitem⟩
      exact ⟨g.1, g.2, mem_exposition_group.mpr hg, hview, hitem⟩

end BrzMetrics
